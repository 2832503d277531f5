import StackSurvey.CallGraph.Basic

namespace StackSurvey.CallGraph

/-- The stack of a chain of calls, and the number of functions on it. -/
structure Chain where
  stack : Nat := 0
  frames : Nat := 0
deriving DecidableEq, Inhabited

namespace Chain

/-- The worse of two chains, of equal stacks the longer one. -/
def worse (a b : Chain) : Chain :=
  if a.stack < b.stack ∨ a.stack = b.stack ∧ a.frames < b.frames then b else a

/-- The chain that begins with a function and goes on as `c`. Stacks are words of 64 bits. -/
def after (c : Chain) (node : CallNode) : Chain :=
  { stack := (node.localStack + c.stack) % 1 <<< 64, frames := c.frames + 1 }

end Chain

/-- What a search from a function finds. -/
structure BranchReport where
  /-- The worst chain that begins at the function. -/
  chain : Chain := {}
  /-- The functions that were met again on the path to them, and those that call themselves. -/
  points : List Nat := []
deriving DecidableEq, Inhabited

namespace BranchReport

/-- A report with that of one more callee. -/
def join (a b : BranchReport) : BranchReport :=
  { chain := a.chain.worse b.chain
    points := b.points.foldl (fun points point => points.insert point) a.points }

/-- The report of a function before its callees are searched. -/
def start (index : Nat) (node : CallNode) : BranchReport :=
  { points := if node.recursion = .self then [index] else [] }

/-- The report of a function whose callees have been searched. -/
def finish (r : BranchReport) (node : CallNode) : BranchReport :=
  { r with chain := r.chain.after node }

end BranchReport

/-- What a search knows of each function of a graph. -/
structure Walker (size : Nat) where
  /-- True of the functions on the path. -/
  onPath : Vector Bool size
  /-- Chains that no recursion took part in. -/
  settled : Vector (Option Chain) size

namespace Walker

/-- A walker that has not searched anything. -/
def fresh (size : Nat) : Walker size :=
  { onPath := .replicate size false, settled := .replicate size none }

theorem count_set_true {size index : Nat} {marks : Vector Bool size} (hi : index < size)
    (hp : marks[index] = false) : (marks.set index true).count false < marks.count false := by
  have hmem : false ∈ marks := hp ▸ Vector.getElem_mem hi
  have hpos := Vector.count_pos_iff.2 hmem
  rw [Vector.count_set, hp]
  change marks.count false - 1 < marks.count false
  exact Nat.sub_lt hpos Nat.one_pos

theorem set_true_set_false {size index : Nat} {marks : Vector Bool size} (hi : index < size)
    (hp : marks[index] = false) : (marks.set index true).set index false = marks := by
  have hback : marks.set index marks[index] = marks := Vector.set_getElem_self hi
  rw [hp] at hback
  rw [Vector.set_set]
  exact hback

/-- The report of a function when it is searched from the end of a path. Every step marks a further
function, and the path is left as it was. -/
def walk (nodes : Array CallNode) (w : Walker nodes.size) (index : Nat) :
    { found : BranchReport × Walker nodes.size // found.2.onPath = w.onPath } :=
  if hi : index < nodes.size then
    if hp : w.onPath[index] then
      ⟨({ points := [index] }, w), rfl⟩
    else
      match w.settled[index] with
      | some chain => ⟨({ chain }, w), rfl⟩
      | none =>
        let node := nodes[index]
        let marks := w.onPath.set index true
        let entered : { found : BranchReport × Walker nodes.size // found.2.onPath = marks } :=
          ⟨(.start index node, { w with onPath := marks }), rfl⟩
        let below := node.callees.foldl
          (fun before callee =>
            let branch := walk nodes before.1.2 callee
            ⟨(before.1.1.join branch.1.1, branch.1.2), branch.2.trans before.2⟩)
          entered
        let report := below.1.1.finish node
        ⟨(report,
          { onPath := below.1.2.onPath.set index false
            settled :=
              if report.points.isEmpty then below.1.2.settled.set index (some report.chain)
              else below.1.2.settled }),
          by
            change below.1.2.onPath.set index false = w.onPath
            rw [below.2]
            exact set_true_set_false hi (eq_false_of_ne_true hp)⟩
  else
    ⟨({}, w), rfl⟩
termination_by w.onPath.count false
decreasing_by
  rw [before.2]
  exact count_set_true hi (eq_false_of_ne_true hp)

/-- The report of a function, and the walker that may be asked for the next one. -/
def analyse {nodes : Array CallNode} (w : Walker nodes.size) (root : Nat) :
    BranchReport × Walker nodes.size :=
  (walk nodes w root).1

/-- The reports of functions, in order, from one walker. -/
def analyseAll {nodes : Array CallNode} (roots : List Nat) (w : Walker nodes.size) :
    List BranchReport × Walker nodes.size :=
  match roots with
  | [] => ([], w)
  | root :: roots =>
    let (report, w) := w.analyse root
    let (reports, w) := analyseAll roots w
    (report :: reports, w)

end Walker

end StackSurvey.CallGraph
