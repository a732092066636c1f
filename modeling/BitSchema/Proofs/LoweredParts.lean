import BitSchema.Encoding.Lowering
import BitSchema.Proofs.Outcome

/-!
# Parts of packages

Lowering makes a part of every file and merges the parts of one package.  The packages come out in
the order of their paths, each path once, and each of them holds what its files declare, file after
file.
-/

namespace BitSchema.Lowering

open List

/-! ## Merging -/

/-- A file opens a new package, or it is added to the one that has its path. -/
theorem merge_cases {done : List Ir.Package} (path : String) (ms : Members)
    (distinct : (done.map (·.path)).Nodup) :
    (path ∉ done.map (·.path) ∧ merge done path ms =
        done ++ [{ path, messages? := some ms.messages, enums? := some ms.enums }]) ∨
      ∃ front p back, done = front ++ p :: back ∧ p.path = path ∧ merge done path ms =
        front ++ { p with messages? := some (p.messages ++ ms.messages),
                          enums? := some (p.enums ++ ms.enums) } :: back := by
  unfold merge
  split
  next old =>
    obtain ⟨p, mem, same⟩ := any_eq_true.mp old
    have same : p.path = path := by simpa using same
    obtain ⟨front, back, rfl⟩ := append_of_mem mem
    refine .inr ⟨front, p, back, rfl, same, ?_⟩
    rw [map_append, map_cons, nodup_append, nodup_cons] at distinct
    obtain ⟨-, ⟨notBack, -⟩, notFront⟩ := distinct
    have kept : ∀ (f : Ir.Package → Ir.Package) (qs : List Ir.Package),
        (∀ q ∈ qs, q.path ≠ path) → qs.map (fun q => if q.path == path then f q else q) = qs := by
      intro f qs others
      refine (map_congr_left fun q mem => ?_).trans (map_id qs)
      exact if_neg (by simpa using others q mem)
    rw [map_append, map_cons, kept _ front, kept _ back, if_pos (by simpa using same)]
    · intro q mem here
      exact notBack (same ▸ here ▸ mem_map_of_mem mem)
    · intro q mem here
      exact notFront _ (mem_map_of_mem mem) _ mem_cons_self (here.trans same.symm)
  next new => exact .inl ⟨by simpa using new, rfl⟩

/-! ## Parts -/

/-- What a file adds to the package of a path. -/
def part (table : SymbolTable) (file : Source.Schema) : Except LowerError (String × Members) :=
  match filePackage? file with
  | none => .error (.noPackage file.span.file)
  | some p => (items table (Descriptor.ofPackage p) file.items).map (p.text, ·)

theorem part_ok {table : SymbolTable} {file : Source.Schema} {made : String × Members}
    (ok : part table file = .ok made) : ∃ p, filePackage? file = some p ∧
      ∃ ms, items table (Descriptor.ofPackage p) file.items = .ok ms ∧ made = (p.text, ms) := by
  unfold part at ok
  split at ok
  next => cases ok
  next p package =>
    cases lowers : items table (Descriptor.ofPackage p) file.items with
    | error cause =>
      rw [lowers] at ok
      cases ok
    | ok ms =>
      rw [lowers] at ok
      exact ⟨p, package, ms, lowers, (Except.ok.inj ok).symm⟩

/-- The packages that parts make. -/
def mergeAll (done : List Ir.Package) (parts : List (String × Members)) : List Ir.Package :=
  parts.foldl (fun ps part => merge ps part.1 part.2) done

theorem packages_eq (table : SymbolTable) (done : List Ir.Package) (files : List Source.Schema) :
    packages table done files =
      files.mapM (part table) >>= fun parts => .ok (mergeAll done parts) := by
  induction files generalizing done with
  | nil => rfl
  | cons file files ih =>
    rw [packages, mapM_cons, part]
    cases filePackage? file with
    | none => rfl
    | some p =>
      dsimp only
      cases items table (Descriptor.ofPackage p) file.items with
      | error cause => rfl
      | ok ms =>
        change packages table (merge done p.text ms) files = _
        rw [ih]
        cases files.mapM (part table) with
        | error cause | ok parts => rfl

/-- The package of a path that has all that parts add to it. -/
def pack (parts : List (String × Members)) (path : String) : Ir.Package where
  path := path
  messages? := some ((parts.filter (·.1 == path)).flatMap (·.2.messages))
  enums? := some ((parts.filter (·.1 == path)).flatMap (·.2.enums))

/-- Packages that are made of parts, each path once. -/
structure Merged (ps : List Ir.Package) (parts : List (String × Members)) : Prop where
  distinct : (ps.map (·.path)).Nodup
  paths : ∀ path, path ∈ ps.map (·.path) ↔ path ∈ parts.map Prod.fst
  each : ∀ p ∈ ps, p = pack parts p.path

variable {ps : List Ir.Package} {parts : List (String × Members)} {path : String} {ms : Members}

theorem pack_same : pack (parts ++ [(path, ms)]) path =
    { pack parts path with messages? := some ((pack parts path).messages ++ ms.messages),
                           enums? := some ((pack parts path).enums ++ ms.enums) } := by
  have one : [(path, ms)].filter (·.1 == path) = [(path, ms)] := by simp
  simp only [pack, filter_append, one, flatMap_append, flatMap_singleton]
  rfl

theorem pack_other {other : String} (differs : other ≠ path) :
    pack (parts ++ [(path, ms)]) other = pack parts other := by
  have none : [(path, ms)].filter (·.1 == other) = [] := by simp [differs.symm]
  simp only [pack, filter_append, none, append_nil]

theorem pack_fresh (fresh : path ∉ parts.map Prod.fst) :
    pack parts path = { path, messages? := some [], enums? := some [] } := by
  have none : parts.filter (·.1 == path) = [] := by
    refine filter_eq_nil_iff.mpr fun part mem same => fresh ?_
    rw [← eq_of_beq same]
    exact mem_map_of_mem mem
  rw [pack, none]
  rfl

theorem merged_merge (merged : Merged ps parts) :
    Merged (merge ps path ms) (parts ++ [(path, ms)]) := by
  obtain ⟨distinct, paths, each⟩ := merged
  rcases merge_cases path ms distinct with ⟨fresh, eq⟩ | ⟨front, q, back, rfl, rfl, eq⟩
  · rw [eq]
    refine ⟨?_, fun other => ?_, ?_⟩
    · rw [map_append, map_singleton, ← concat_eq_append]
      exact distinct.concat fresh
    · rw [map_append, map_append, mem_append, mem_append, paths]
      rfl
    · refine forall_mem_append.mpr ⟨fun p mem => ?_, forall_mem_singleton.mpr ?_⟩
      · have differs : p.path ≠ path := by
          intro same
          exact fresh (same ▸ mem_map_of_mem mem)
        rw [pack_other differs]
        exact each p mem
      · rw [pack_same, pack_fresh ((paths path).not.mp fresh)]
        rfl
  · rw [eq]
    have kept : ∀ p ∈ front ++ back, p.path ≠ q.path := by
      rw [map_append, map_cons, nodup_middle, nodup_cons] at distinct
      intro p mem same
      rw [← map_append] at distinct
      exact distinct.1 (same ▸ mem_map_of_mem mem)
    have here := each q (mem_append_right _ mem_cons_self)
    have known : q.path ∈ parts.map Prod.fst :=
      (paths q.path).mp (mem_map_of_mem (mem_append_right _ mem_cons_self))
    refine ⟨?_, fun other => ?_, fun p mem => ?_⟩
    · rw [map_append, map_cons] at distinct ⊢
      exact distinct
    · rw [map_append, map_cons] at paths ⊢
      rw [paths other, map_append, mem_append, map_singleton, mem_singleton]
      exact ⟨.inl, fun mem => mem.elim id fun same => same ▸ known⟩
    · rcases mem_cons.mp (perm_middle.mem_iff.mp mem) with rfl | mem
      · rw [pack_same, ← here]
      · rw [pack_other (kept p mem)]
        exact each p (perm_middle.mem_iff.mpr (mem_cons_of_mem q mem))

theorem merged_mergeAll (parts : List (String × Members)) : Merged (mergeAll [] parts) parts := by
  induction parts using List.reverseRecOn with
  | nil => exact ⟨nodup_nil, by simp [mergeAll], by simp [mergeAll]⟩
  | append_singleton parts part ih =>
    rw [mergeAll, foldl_append]
    exact merged_merge ih

theorem Merged.perm {qs : List Ir.Package} (merged : Merged ps parts) (same : qs.Perm ps) :
    Merged qs parts where
  distinct := ((same.map _).nodup_iff).mpr merged.distinct
  paths path := (same.map _).mem_iff.trans (merged.paths path)
  each p mem := merged.each p (same.mem_iff.mp mem)

theorem Merged.eq_map (merged : Merged ps parts) : ps = (ps.map (·.path)).map (pack parts) := by
  rw [map_map]
  exact (map_id ps).symm.trans (map_congr_left merged.each)

/-- The packages of lowered files stand in the order of their paths. -/
theorem merged_of_lower {table : SymbolTable} {files : List Source.Schema} {schema : Ir.Schema}
    (ok : lower table files = .ok schema) :
    (schema.packages.map (·.path)).Pairwise (· ≤ ·) ∧
      ∃ parts, files.mapM (part table) = .ok parts ∧ Merged schema.packages parts := by
  obtain ⟨packages, lowers, eq⟩ := bind_ok_iff.mp ok
  cases eq
  rw [packages_eq] at lowers
  obtain ⟨parts, lowered, eq⟩ := bind_ok_iff.mp lowers
  cases eq
  refine ⟨?_, parts, lowered, (merged_mergeAll parts).perm (mergeSort_perm _ _)⟩
  refine pairwise_map.mpr ((pairwise_mergeSort ?_ ?_ (mergeAll [] parts)).imp ?_)
  · intro a b c
    simpa using le_trans
  · intro a b
    simpa using le_total a.path b.path
  · intro a b le
    simpa using le

end BitSchema.Lowering
