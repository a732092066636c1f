import BitSchema.Name.Basic

/-!
# Module graphs

A module is the summary of one schema file, and a graph holds modules by their paths, with an edge
for each include.  A graph links if every include leads to a module and no chain of includes comes
back to its start.
-/

namespace BitSchema

/-- One schema file: its package, what it includes, and what it declares. -/
structure Module where
  path : String
  package : PackageName := {}
  deps : List String := []
  messages : List Descriptor := []
  enums : List Descriptor := []
  deriving DecidableEq, Repr, Inhabited

/-- Why a graph does not link. -/
inductive LinkError where
  | missing (source target : String)
  /-- The first and the last path are the same. -/
  | cycle (paths : List String)
  deriving DecidableEq, Repr

/-- Paths joined by arrows. -/
def chainText (paths : List String) : String := " -> ".intercalate paths

def LinkError.message : LinkError → String
  | missing source target => s!"{source} includes {target}, which is not part of the compilation"
  | cycle paths => "circular dependency: " ++ chainText paths

/-- Modules, each path once, in the order in which the paths were first added. -/
structure ModuleGraph where
  modules : List Module := []
  deriving DecidableEq, Repr, Inhabited

namespace ModuleGraph

def module? (g : ModuleGraph) (path : String) : Option Module :=
  g.modules.find? (·.path == path)

def contains (g : ModuleGraph) (path : String) : Bool := (g.module? path).isSome

/-- Add a module, in place of one with the same path. -/
def add (g : ModuleGraph) (m : Module) : ModuleGraph :=
  if g.contains m.path then ⟨g.modules.map fun old => if old.path == m.path then m else old⟩
  else ⟨g.modules ++ [m]⟩

def size (g : ModuleGraph) : Nat := g.modules.length

def paths (g : ModuleGraph) : List String := g.modules.map Module.path

/-- A cycle was found; `done` is what was finished before. -/
structure Stopped where
  cycle : List String
  done : List String

/-- Finish a module after everything it depends on.  `trail` leads to it from where the walk
started, and `done` are the modules finished so far, in order.  A trail never holds a path twice, so
its length is at most the number of modules, and that is enough fuel. -/
def visit (g : ModuleGraph) : Nat → List String → List String → String →
    Except Stopped (List String)
  | fuel, trail, done, path =>
    if path ∈ trail then .error ⟨trail.dropWhile (· != path) ++ [path], done⟩
    else if path ∈ done then .ok done
    else match g.module? path, fuel with
      | none, _ => .ok done
      | some _, 0 => .ok done
      | some m, fuel + 1 => do
        let done ← m.deps.foldlM (visit g fuel (trail ++ [path])) done
        return done ++ [path]

/-- Visit every module in order. -/
def walk (g : ModuleGraph) : Except Stopped (List String) :=
  g.paths.foldlM (g.visit (g.size + 1) []) []

/-- The modules, each after those it depends on; in a graph with a cycle, those finished before the
cycle was found. -/
def order (g : ModuleGraph) : List String :=
  match g.walk with
  | .ok done => done
  | .error stopped => stopped.done

/-- The first include that leads to no module. -/
def missing? (g : ModuleGraph) : Option (String × String) :=
  g.modules.findSome? fun m => (m.deps.find? (!g.contains ·)).map (m.path, ·)

/-- Every include leads to a module, and there is no cycle. -/
def link (g : ModuleGraph) : Except LinkError Unit :=
  match g.missing? with
  | some (source, target) => .error (.missing source target)
  | none =>
    match g.walk with
    | .ok _ => .ok ()
    | .error stopped => .error (.cycle stopped.cycle)

end ModuleGraph

end BitSchema
