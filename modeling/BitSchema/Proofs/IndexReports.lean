import BitSchema.Proofs.AssignedIndices

/-!
# What the index check reports

The index check goes through a source once and remembers, for every message and enum on the way, the
first item of each name and of each index.  What it reports is said here without that memory: of
each message or enum, the items whose name an earlier one has, the indices that are too large, and
the others that were given before (`ItemScope.report`).

Types may be declared between the fields of a message and are checked where they stand, so the whole
report is that of all messages and enums in some order.
-/

namespace BitSchema

open List
open Source (Ident IntLit)

/-! ## Repetitions -/

section

variable {α β : Type} [BEq β] {key : α → β} {xs kept : List α} {x : α}

/-- The elements whose key an earlier one has, each after the first element of its key. -/
def repetitions (key : α → β) (xs : List α) : List (α × α) :=
  xs.zipIdx.filterMap fun p =>
    ((xs.take p.2).find? fun x => key x == key p.1).map fun first => (first, p.1)

/-- The third of a key is reported with the first of it, not with the second. -/
example : repetitions Prod.fst [(1, 'a'), (2, 'b'), (1, 'c'), (1, 'd')] =
    [((1, 'a'), (1, 'c')), ((1, 'a'), (1, 'd'))] := by
  decide

theorem repetitions_concat (key : α → β) (xs : List α) (x : α) :
    repetitions key (xs ++ [x]) =
      repetitions key xs ++ ((xs.find? (key · == key x)).map (·, x)).toList := by
  unfold repetitions
  rw [zipIdx_append, filterMap_append]
  congr 1
  · refine filterMap_congr fun p mem => ?_
    have inside := snd_lt_of_mem_zipIdx mem
    rw [take_append_of_le_length (by omega)]
  · cases found : xs.find? (key · == key x) <;> simp [found]

theorem repetitions_eq_nil [LawfulBEq β] : repetitions key xs = [] ↔ (xs.map key).Nodup := by
  induction xs using List.reverseRecOn with
  | nil => simp [repetitions]
  | append_singleton xs x ih =>
    rw [repetitions_concat, append_eq_nil_iff, ih, Option.toList_eq_nil_iff, Option.map_eq_none_iff,
      find?_eq_none, map_append, map_singleton, ← concat_eq_append, nodup_concat, and_comm]
    simp

/-- A list that has the first of each key finds the same elements. -/
def KeepsFirst (key : α → β) (kept xs : List α) : Prop :=
  ∀ v, kept.find? (key · == v) = xs.find? (key · == v)

/-- An element whose key is there already can be left out. -/
theorem KeepsFirst.again [LawfulBEq β] (keeps : KeepsFirst key kept xs)
    (known : (xs.find? (key · == key x)).isSome) : KeepsFirst key kept (xs ++ [x]) := by
  intro v
  rw [keeps, find?_append]
  cases found : xs.find? (key · == v) with
  | some first => rfl
  | none =>
    have other : key x ≠ v := by
      rintro rfl
      rw [found] at known
      cases known
    simp [other]

theorem KeepsFirst.snoc (keeps : KeepsFirst key kept xs) (x : α) :
    KeepsFirst key (kept ++ [x]) (xs ++ [x]) := by
  intro v
  rw [find?_append, find?_append, keeps]

end

/-! ## Reports -/

/-- A message or enum as far as the places of its items are concerned. -/
structure ItemScope where
  kind : String
  container : String
  items : List IndexedItem

namespace ItemScope

def names (s : ItemScope) : List Ident := s.items.map (·.name)

/-- The indices that are given, each with the name of its item. -/
def given (s : ItemScope) : List (Ident × IntLit) :=
  s.items.filterMap fun item => item.index.map (item.name, ·)

/-- The indices that are given and not too large. -/
def inRange (s : ItemScope) : List (Ident × IntLit) :=
  s.given.filter fun p => p.2.value.toNat ≤ maxIndex

def repeatedNames (s : ItemScope) : List Diagnostic :=
  (repetitions Ident.value s.names).map fun p =>
    ⟨p.2.span, .duplicateName s.kind p.2.value s.container p.1.span⟩

def wideIndices (s : ItemScope) : List Diagnostic :=
  (s.given.filter fun p => maxIndex < p.2.value.toNat).map fun p =>
    ⟨p.2.span, .wideIndex p.2.value.toNat p.1.value⟩

def repeatedIndices (s : ItemScope) : List Diagnostic :=
  (repetitions (fun p => p.2.value) s.inRange).map fun p =>
    ⟨p.2.2.span,
      .duplicateIndex p.2.2.value.toNat s.kind s.container p.2.1.value p.1.1.value p.1.2.span⟩

/-- All that is wrong with the names and indices of a message or enum. -/
def report (s : ItemScope) : List Diagnostic :=
  s.repeatedNames ++ s.wideIndices ++ s.repeatedIndices

theorem code_repeatedNames (s : ItemScope) : ∀ d ∈ s.repeatedNames, d.code = 3011 := by
  rw [repeatedNames, forall_mem_map]
  exact fun p _ => rfl

theorem code_wideIndices (s : ItemScope) : ∀ d ∈ s.wideIndices, d.code = 3010 := by
  rw [wideIndices, forall_mem_map]
  exact fun p _ => rfl

theorem code_repeatedIndices (s : ItemScope) : ∀ d ∈ s.repeatedIndices, d.code = 3009 := by
  rw [repeatedIndices, forall_mem_map]
  exact fun p _ => rfl

/-- Problems of a code below 4000 are no errors only if there are none. -/
theorem errorFree_iff_eq_nil {ds : List Diagnostic} {code : Nat} (all : ∀ d ∈ ds, d.code = code)
    (error : code < 4000) : ErrorFree ds ↔ ds = [] := by
  constructor
  · intro clean
    refine eq_nil_iff_forall_not_mem.mpr fun d mem => ?_
    have warning := isError_eq_false_iff.mp (clean d mem)
    have same : d.problem.code = code := all d mem
    omega
  · rintro rfl
    exact errorFree_nil

/-- Nothing is reported of items with different names and different indices, all in range. -/
theorem errorFree_report {s : ItemScope} :
    ErrorFree s.report ↔ (s.names.map (·.value)).Nodup ∧
      (∀ p ∈ s.given, p.2.value.toNat ≤ maxIndex) ∧ (s.given.map (·.2.value)).Nodup := by
  rw [report, errorFree_append, errorFree_append,
    errorFree_iff_eq_nil s.code_repeatedNames (by decide),
    errorFree_iff_eq_nil s.code_wideIndices (by decide),
    errorFree_iff_eq_nil s.code_repeatedIndices (by decide), and_assoc]
  refine and_congr (by rw [repeatedNames, map_eq_nil_iff, repetitions_eq_nil]) ?_
  have wide : s.wideIndices = [] ↔ ∀ p ∈ s.given, p.2.value.toNat ≤ maxIndex := by
    simp [wideIndices]
  rw [wide]
  refine and_congr_right fun narrow => ?_
  have all : s.inRange = s.given := filter_eq_self.mpr fun p mem => by simpa using narrow p mem
  rw [repeatedIndices, map_eq_nil_iff, repetitions_eq_nil, all]

end ItemScope

/-! ## One item after the other -/

namespace IndexScope

variable {s : IndexScope} {earlier items : List IndexedItem} {item : IndexedItem}

/-- Items in a scope. -/
def scopeOf (s : IndexScope) (items : List IndexedItem) : ItemScope := ⟨s.kind, s.container, items⟩

/-- The scope has the first of each name and of each index of the items so far. -/
structure Follows (s : IndexScope) (earlier : List IndexedItem) : Prop where
  names : KeepsFirst Ident.value s.names (s.scopeOf earlier).names
  indices : KeepsFirst (fun p => p.2.value) s.indices (s.scopeOf earlier).inRange

/-- What is reported of an index, if one is given. -/
def givenProblem? (s : IndexScope) (item : IndexedItem) : Option Diagnostic :=
  item.index.bind (s.indexProblem? item.name)

/-- An item adds to the names or is reported, and so it is with its index. -/
theorem add_eq (s : IndexScope) (item : IndexedItem) :
    s.add item =
      ({ s with
          names := if (s.nameProblem? item.name).isSome then s.names else s.names ++ [item.name]
          indices := if (s.givenProblem? item).isSome then s.indices
            else s.indices ++ (item.index.map (item.name, ·)).toList },
        (s.nameProblem? item.name).toList ++ (s.givenProblem? item).toList) := by
  unfold add givenProblem?
  cases index : item.index with
  | none => cases s.nameProblem? item.name <;> simp
  | some i =>
    cases s.nameProblem? item.name <;> cases problem : s.indexProblem? item.name i <;>
      simp [problem]

theorem scopeOf_add (s : IndexScope) (item : IndexedItem) (items : List IndexedItem) :
    (s.add item).1.scopeOf items = s.scopeOf items := by
  rw [add_eq]
  rfl

theorem names_concat (s : IndexScope) (earlier : List IndexedItem) (item : IndexedItem) :
    (s.scopeOf (earlier ++ [item])).names = (s.scopeOf earlier).names ++ [item.name] := by
  simp [scopeOf, ItemScope.names]

theorem given_concat (s : IndexScope) (earlier : List IndexedItem) (item : IndexedItem) :
    (s.scopeOf (earlier ++ [item])).given =
      (s.scopeOf earlier).given ++ (item.index.map (item.name, ·)).toList := by
  cases index : item.index <;> simp [scopeOf, ItemScope.given, index]

section

variable (follows : s.Follows earlier)

include follows

/-- A name is reported if it is a repetition. -/
theorem Follows.repeatedNames (item : IndexedItem) :
    (s.scopeOf (earlier ++ [item])).repeatedNames =
      (s.scopeOf earlier).repeatedNames ++ (s.nameProblem? item.name).toList := by
  rw [ItemScope.repeatedNames, names_concat, repetitions_concat, map_append, nameProblem?,
    follows.names item.name.value]
  cases (s.scopeOf earlier).names.find? (·.value == item.name.value) <;> rfl

theorem Follows.names_add (item : IndexedItem) :
    KeepsFirst Ident.value (s.add item).1.names (s.scopeOf (earlier ++ [item])).names := by
  rw [add_eq, names_concat]
  dsimp only
  split
  next known =>
    refine follows.names.again ?_
    rwa [nameProblem?, Option.isSome_map, follows.names item.name.value] at known
  next => exact follows.names.snoc item.name

/-- An index in range is reported if it is a repetition. -/
theorem Follows.repeatedIndices {i : IntLit} (narrow : ¬ maxIndex < i.value.toNat)
    (more : (s.scopeOf (earlier ++ [item])).inRange =
      (s.scopeOf earlier).inRange ++ [(item.name, i)]) :
    (s.scopeOf (earlier ++ [item])).repeatedIndices =
      (s.scopeOf earlier).repeatedIndices ++ (s.indexProblem? item.name i).toList := by
  rw [ItemScope.repeatedIndices, more, repetitions_concat, map_append, indexProblem?,
    if_neg narrow, follows.indices i.value]
  cases (s.scopeOf earlier).inRange.find? (·.2.value == i.value) <;> rfl

/-- An index is reported if it is too large or a repetition, and kept if it is neither. -/
theorem Follows.indices_add (item : IndexedItem) :
    ((s.scopeOf (earlier ++ [item])).wideIndices ++
        (s.scopeOf (earlier ++ [item])).repeatedIndices).Perm
        ((s.scopeOf earlier).wideIndices ++ (s.scopeOf earlier).repeatedIndices ++
          (s.givenProblem? item).toList) ∧ KeepsFirst (fun p => p.2.value) (s.add item).1.indices
        (s.scopeOf (earlier ++ [item])).inRange := by
  have more := given_concat s earlier item
  rw [add_eq]
  dsimp only
  cases index : item.index with
  | none =>
    have problem : s.givenProblem? item = none := by rw [givenProblem?, index, Option.bind_none]
    rw [index, Option.map_none, Option.toList_none, append_nil] at more
    simp only [ItemScope.wideIndices, ItemScope.repeatedIndices, ItemScope.inRange, more, problem,
      Option.map_none, Option.toList_none, append_nil, Option.isSome_none]
    exact ⟨.refl _, follows.indices⟩
  | some i =>
    have problem : s.givenProblem? item = s.indexProblem? item.name i := by
      rw [givenProblem?, index, Option.bind_some]
    rw [index, Option.map_some, Option.toList_some] at more
    rw [problem, Option.map_some, Option.toList_some]
    by_cases wide : maxIndex < i.value.toNat
    · have reported : s.indexProblem? item.name i =
          some ⟨i.span, .wideIndex i.value.toNat item.name.value⟩ := by
        rw [indexProblem?, if_pos wide]
      have same : (s.scopeOf (earlier ++ [item])).inRange = (s.scopeOf earlier).inRange := by
        simp [ItemScope.inRange, more, wide]
      have wides : (s.scopeOf (earlier ++ [item])).wideIndices =
          (s.scopeOf earlier).wideIndices ++ (s.indexProblem? item.name i).toList := by
        simp [ItemScope.wideIndices, more, wide, reported]
      have others : (s.scopeOf (earlier ++ [item])).repeatedIndices =
          (s.scopeOf earlier).repeatedIndices := by
        rw [ItemScope.repeatedIndices, same]
        rfl
      rw [wides, others, same, reported, Option.isSome_some, if_pos rfl, append_assoc, append_assoc]
      exact ⟨perm_append_comm.append_left _, follows.indices⟩
    · have range : (s.scopeOf (earlier ++ [item])).inRange =
          (s.scopeOf earlier).inRange ++ [(item.name, i)] := by
        simp [ItemScope.inRange, more, Nat.le_of_not_lt wide]
      have wides : (s.scopeOf (earlier ++ [item])).wideIndices =
          (s.scopeOf earlier).wideIndices := by
        simp [ItemScope.wideIndices, more, wide]
      rw [wides, follows.repeatedIndices wide range, range, append_assoc]
      refine ⟨.refl _, ?_⟩
      split
      next known =>
        refine follows.indices.again ?_
        rwa [indexProblem?, if_neg wide, Option.isSome_map, follows.indices i.value] at known
      next => exact follows.indices.snoc (item.name, i)

/-- One item adds to the report what it is reported for. -/
theorem Follows.add (item : IndexedItem) :
    (s.scopeOf (earlier ++ [item])).report.Perm ((s.scopeOf earlier).report ++ (s.add item).2) ∧
      (s.add item).1.Follows (earlier ++ [item]) := by
  obtain ⟨perm, indices⟩ := follows.indices_add item
  refine ⟨?_, ?_⟩
  · rw [ItemScope.report, ItemScope.report, follows.repeatedNames, add_eq]
    rw [← Multiset.coe_eq_coe, ← Multiset.coe_add, ← Multiset.coe_add] at perm
    rw [← Multiset.coe_eq_coe, append_assoc]
    simp only [← Multiset.coe_add] at perm ⊢
    rw [perm]
    abel
  · refine ⟨?_, ?_⟩
    · rw [scopeOf_add]
      exact follows.names_add item
    · rw [scopeOf_add]
      exact indices

/-- Items add to the report what they are reported for, one after the other. -/
theorem Follows.addAll (items : List IndexedItem) :
    (s.scopeOf (earlier ++ items)).report.Perm ((s.scopeOf earlier).report ++ s.addAll items) := by
  induction items generalizing s earlier with
  | nil => simp [IndexScope.addAll]
  | cons item items ih =>
    obtain ⟨perm, next⟩ := follows.add item
    have rest := ih next
    rw [scopeOf_add, scopeOf_add, append_assoc] at rest
    refine rest.trans ((perm.append_right _).trans ?_)
    rw [IndexScope.addAll, append_assoc]

end

theorem perm_report (kind container : String) (items : List IndexedItem) :
    (addAll ⟨kind, container, [], []⟩ items).Perm (ItemScope.report ⟨kind, container, items⟩) := by
  have start : Follows ⟨kind, container, [], []⟩ [] := ⟨fun _ => rfl, fun _ => rfl⟩
  exact (start.addAll items).symm

end IndexScope

/-! ## Whole sources -/

namespace Source

def Message.itemScope (m : Message) : ItemScope :=
  ⟨"field", m.name.value, m.fields.map fun f => ⟨f.name, f.index⟩⟩

def Enum.itemScope (e : Enum) : ItemScope :=
  ⟨"variant", e.name.value, e.variants.map fun v => ⟨v.name, v.index⟩⟩

/-- The messages and enums that a source declares, at any depth. -/
def Schema.itemScopes (s : Schema) : List ItemScope :=
  s.allMessages.map Message.itemScope ++ s.allEnums.map Enum.itemScope

/-- What is to be reported of messages and enums. -/
def reportAll (ms : List Message) (es : List Enum) : List Diagnostic :=
  (ms.map Message.itemScope ++ es.map Enum.itemScope).flatMap ItemScope.report

theorem perm_reportAll_append (ms ms' : List Message) (es es' : List Enum) :
    (reportAll (ms ++ ms') (es ++ es')).Perm (reportAll ms es ++ reportAll ms' es') := by
  simp only [reportAll, map_append, flatMap_append]
  rw [← Multiset.coe_eq_coe]
  simp only [← Multiset.coe_add]
  abel

theorem perm_checkEnumIndices (e : Enum) : (checkEnumIndices e).Perm (reportAll [] [e]) := by
  rw [reportAll, map_nil, nil_append, map_singleton, flatMap_singleton]
  exact IndexScope.perm_report _ _ _

theorem Message.perm_report (m : Message) :
    (checkMessageIndices m).Perm (reportAll m.allMessages m.allEnums) := by
  induction m using Message.induct with
  | step span doc name members ih =>
    rw [checkMessageIndices, Message.allMessages, Message.allEnums]
    have below : (members.flatMap checkDeclared).Perm
        (reportAll (messagesIn members) (enumsIn members)) := by
      induction members with
      | nil => exact .refl _
      | cons member members rest =>
        rw [flatMap_cons, messagesIn, enumsIn]
        refine .trans (.append ?_ (rest fun m mem => ih m (mem_cons_of_mem _ mem)))
          (perm_reportAll_append _ _ _ _).symm
        cases member with
        | field f => exact .refl _
        | message m => exact ih m mem_cons_self
        | enum e => exact perm_checkEnumIndices e
    exact (perm_checkMemberIndices _ members).trans
      ((IndexScope.perm_report "field" name.value _).append below)

theorem perm_checkItem (span : Span) (item : Item) :
    (checkIndices ⟨span, [item]⟩).Perm (reportAll item.allMessages item.allEnums) := by
  rw [checkIndices, flatMap_singleton]
  cases item with
  | package p | inclusion i => exact .refl _
  | message m => exact m.perm_report
  | enum e => exact perm_checkEnumIndices e

theorem Schema.perm_report (s : Schema) :
    (checkIndices s).Perm (reportAll s.allMessages s.allEnums) := by
  obtain ⟨span, items⟩ := s
  induction items with
  | nil => exact .refl _
  | cons item items ih =>
    have parts : checkIndices ⟨span, item :: items⟩ =
        checkIndices ⟨span, [item]⟩ ++ checkIndices ⟨span, items⟩ := by
      rw [checkIndices, checkIndices, checkIndices, flatMap_cons, flatMap_singleton]
    rw [parts]
    exact ((perm_checkItem span item).append ih).trans (perm_reportAll_append _ _ _ _).symm

end Source

/-- The index check is exact.  It has no error to report if and only if in each message and each
enum of a source, at any depth, the names are different, and so are the indices that are given, none
of them too large.  In any case it reports, once each, the names that an earlier item of the same
message or enum has, the indices that are too large, and of the others those that an earlier item is
given, and a repetition cites the first item of its name or index. -/
theorem checkIndices_exact (schema : Source.Schema) :
    (ErrorFree (checkIndices schema) ↔ ∀ s ∈ schema.itemScopes,
      (s.names.map (·.value)).Nodup ∧ (∀ p ∈ s.given, p.2.value.toNat ≤ 2 ^ 32 - 1) ∧
        (s.given.map (·.2.value)).Nodup) ∧
    (checkIndices schema).Perm (schema.itemScopes.flatMap ItemScope.report) ∧
    ∀ s : ItemScope, (∀ d ∈ s.repeatedNames, d.code = 3011) ∧
      (∀ d ∈ s.wideIndices, d.code = 3010) ∧ ∀ d ∈ s.repeatedIndices, d.code = 3009 := by
  have perm : (checkIndices schema).Perm (schema.itemScopes.flatMap ItemScope.report) :=
    schema.perm_report
  refine ⟨?_, perm, fun s => ⟨s.code_repeatedNames, s.code_wideIndices, s.code_repeatedIndices⟩⟩
  have all : ErrorFree (checkIndices schema) ↔ ∀ s ∈ schema.itemScopes, ErrorFree s.report := by
    rw [← errorFree_flatMap]
    exact ⟨fun clean => clean.perm perm, fun clean => clean.perm perm.symm⟩
  rw [all]
  exact forall₂_congr fun s _ => ItemScope.errorFree_report

end BitSchema
