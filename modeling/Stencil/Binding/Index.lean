import Stencil.Binding.Segment

/-! The index of one template's bindings: a trie of the paths in use. Each path
that is bound has a variable, each path that a computation reads lists the
computation. A route says what a change of the data at one path leads to: which
variables are read anew, and which computations run. -/
namespace Stencil.Binding

abbrev Var := Nat

/-- A stretch of literal text or the value of a variable. -/
inductive Part where
  | literal (text : String)
  | var (v : Var)
  deriving DecidableEq, Repr

abbrev Interpolation := List Part

namespace Interpolation

/-- The variable, when the whole is one variable. -/
def single? : Interpolation → Option Var
  | [.var v] => some v
  | _ => none

def vars (i : Interpolation) : List Var :=
  i.filterMap fun
    | .var v => some v
    | .literal _ => none

end Interpolation

/-- For the data at path `key`: each variable at or below it with its path from
there, and the computations to run, ascending. -/
structure Route where
  key : String
  bindings : List (Var × List String)
  computations : List Nat
  deriving DecidableEq, Repr

namespace Route

/-- Adds a route to a table; it takes the place of one with the same key. -/
def put (r : Route) : List Route → List Route
  | [] => [r]
  | q :: qs => if q.key = r.key then r :: qs else q :: put r qs

/-- The table of the routes given: a key stands where it came first, with the
route that came last. -/
def table (rs : List Route) : List Route := rs.foldl (fun t r => put r t) []

theorem find?_put (r : Route) (rs : List Route) (k : String) :
    (put r rs).find? (·.key == k) = if r.key = k then some r else rs.find? (·.key == k) := by
  induction rs with
  | nil => by_cases hk : r.key = k <;> simp [put, hk]
  | cons q qs ih =>
    rw [put]
    split
    · rename_i hq
      by_cases hk : r.key = k <;> simp [hq, hk]
    · rename_i hq
      rw [List.find?_cons, ih, List.find?_cons]
      by_cases hk : r.key = k
      · have hqk : (q.key == k) = false := by simpa [hk] using hq
        simp [hk, hqk]
      · simp [hk]

end Route

/-- A node of the trie: the variable of its own path, the computations that read
that path, and the longer paths by their next segment. -/
inductive Trie where
  | node (var : Option Var) (readers : List Nat) (branches : List (String × Trie))

namespace Trie

def empty : Trie := .node none [] []

def branches : Trie → List (String × Trie)
  | .node _ _ bs => bs

/-- Changes the branch called `s`, which comes last when it is new. -/
def alter (s : String) (f : Trie → Trie) : List (String × Trie) → List (String × Trie)
  | [] => [(s, f empty)]
  | (k, t) :: bs => if k = s then (k, f t) :: bs else (k, t) :: alter s f bs

/-- Changes the node at a path, which is made when it is not there. -/
def modify (f : Trie → Trie) : List String → Trie → Trie
  | [], t => f t
  | s :: ss, .node v rs bs => .node v rs (alter s (modify f ss) bs)

def branch? (s : String) : List (String × Trie) → Option Trie
  | [] => none
  | (k, t) :: bs => if k = s then some t else branch? s bs

/-- The variable of a path. -/
def var? : List String → Trie → Option Var
  | [], .node v _ _ => v
  | s :: ss, .node _ _ bs => (branch? s bs).bind (var? ss)

def setVar (v : Var) : Trie → Trie
  | .node _ rs bs => .node (some v) rs bs

def addReader (i : Nat) : Trie → Trie
  | .node v rs bs => .node v (if rs.contains i then rs else rs ++ [i]) bs

mutual

/-- The variables at and below a node, with their paths from there. -/
def vars : Trie → List (Var × List String)
  | .node v _ bs => v.toList.map (·, []) ++ branchVars bs

def branchVars : List (String × Trie) → List (Var × List String)
  | [] => []
  | (s, t) :: bs => (vars t).map (fun b => (b.1, s :: b.2)) ++ branchVars bs

end

mutual

/-- The computations that read a path at or below a node. -/
def readers : Trie → List Nat
  | .node _ rs bs => rs ++ branchReaders bs

def branchReaders : List (String × Trie) → List Nat
  | [] => []
  | (_, t) :: bs => readers t ++ branchReaders bs

end

/-- The route of the node at `path`, among `count` computations. -/
def route (count : Nat) (path : List String) (t : Trie) : Route where
  key := dotted path
  bindings := vars t
  computations := (List.range count).filter (readers t).contains

mutual

/-- The routes of a node at `path` and of all below it, each before its branches. -/
def routes (count : Nat) (path : List String) : Trie → List Route
  | .node v rs bs => route count path (.node v rs bs) :: branchRoutes count path bs

def branchRoutes (count : Nat) (path : List String) : List (String × Trie) → List Route
  | [] => []
  | (s, t) :: bs => routes count (path ++ [s]) t ++ branchRoutes count path bs

end

end Trie

/-- The bindings of a template in the making, over computations of type `α`. -/
structure Index (α : Type) where
  trie : Trie := .empty
  computations : List α := []
  varCount : Nat := 0

namespace Index

variable {α : Type}

/-- The variable of a path; a new one if the path has none yet. -/
def assign (p : Path) (ix : Index α) : Var × Index α :=
  match ix.trie.var? p.segments with
  | some v => (v, ix)
  | none =>
    (ix.varCount, { ix with
      trie := ix.trie.modify (Trie.setVar ix.varCount) p.segments
      varCount := ix.varCount + 1 })

/-- Adds a computation, to be run when the data at one of the paths changes. -/
def record (a : α) (paths : List Path) (ix : Index α) : Index α :=
  { ix with
    trie := paths.foldl (fun t p => t.modify (Trie.addReader ix.computations.length) p.segments)
      ix.trie
    computations := ix.computations ++ [a] }

/-- Gives every reference its variable. -/
def interpolate : List Segment → Index α → Interpolation × Index α
  | [], ix => ([], ix)
  | .literal s :: ss, ix =>
    let (parts, ix) := interpolate ss ix
    (if s = "" then parts else .literal s :: parts, ix)
  | .reference p :: ss, ix =>
    let (v, ix) := ix.assign p
    let (parts, ix) := interpolate ss ix
    (.var v :: parts, ix)

/-- The paths referred to, in order. -/
def paths (ss : List Segment) : List Path :=
  ss.filterMap fun
    | .reference p => some p
    | .literal _ => none

/-- Adds the computation that `build` makes of the interpolated segments. -/
def gather (ss : List Segment) (build : Interpolation → α) (ix : Index α) : Index α :=
  let (parts, ix) := interpolate ss ix
  ix.record (build parts) (paths ss)

/-- One route for every path in use and every beginning of one; longer paths
after shorter ones, otherwise in the order in which they were first seen. -/
def routes (ix : Index α) : List Route :=
  Trie.branchRoutes ix.computations.length [] ix.trie.branches

end Index
end Stencil.Binding
