import Milp.Proofs.Search.Process

/-!
# Decisions

What becomes of a node depends on little: on the incumbent, on the bounds of the node, on whether it
is the root, and on the verdict about its relaxation. Neither the queue nor the rest of the tree, nor
the time at which the node is processed, has a say in it.

Result: `process_eq`, processing a node solves its relaxation, and then does what is decided.
-/

namespace Milp

variable {K L : Type} {n m : Nat}

/-- What is decided about a node. -/
inductive Decision (K : Type) (n : Nat)
  /-- It is closed without a solution. -/
  | close (state : NodeState)
  /-- It is closed by values that are offered as a solution. -/
  | settle (values : Vector K n)
  /-- It is split at a value of a column. -/
  | split (j : Fin n) (v : K)

/-- Whether a node of a tree has no parent. -/
def Tree.isRoot (t : Tree L n) (id : Nat) : Bool :=
  (t.nodes[id]?.bind (·.parent)).isNone

namespace SearchTask

variable [Scalar K] [Limits L K]

/-- What is decided about values that are integral up to the tolerance. -/
def acceptance (k : SearchTask K L n m) (bounds : Box L n) (values : Vector K n) : Decision K n :=
  match k.furthestColumn values with
  | none => .settle values
  | some j =>
    match (k.solver (k.fixAt bounds values)).verdict with
    | .optimal _ values' => .settle values'
    | _ => .split j values[j]

/-- What is decided about a node. -/
def decision (k : SearchTask K L n m) (incumbent : Option (Incumbent K n)) (bounds : Box L n)
    (isRoot : Bool) : Verdict K n → Decision K n
  | .infeasible => .close .infeasible
  | .unbounded => .close (if isRoot then .terminal else .failed)
  | .failed => .close .failed
  | .optimal objective values =>
    if k.canImprove incumbent (k.boundOf objective : L) then
      match k.branchingColumn values with
      | none => k.acceptance bounds values
      | some j => .split j values[j]
    else .close .dominated

/-- The iterations for values that are integral up to the tolerance. -/
def extraIterations (k : SearchTask K L n m) (bounds : Box L n) (values : Vector K n) : Nat :=
  match k.furthestColumn values with
  | none => 0
  | some _ => (k.solver (k.fixAt bounds values)).iterations

/-- The iterations that are spent on a node. -/
def iterationsOn (k : SearchTask K L n m) (incumbent : Option (Incumbent K n)) (bounds : Box L n)
    (outcome : Outcome K n) : Nat :=
  outcome.iterations +
    match outcome.verdict with
    | .optimal objective values =>
      if k.canImprove incumbent (k.boundOf objective : L) && (k.branchingColumn values).isNone then
        k.extraIterations bounds values
      else 0
    | _ => 0

/-- The state after the relaxation of a node was solved and nothing is decided. -/
def solved (k : SearchTask K L n m) (s : Search K L n) (id : Nat) (outcome : Outcome K n) :
    Search K L n :=
  let s' := match outcome.verdict with
    | .optimal objective _ => k.relaxed s id (s.tree.isRoot id) objective
    | _ => s
  s'.tally fun t => { t with
    simplexIterations :=
      t.simplexIterations + k.iterationsOn s.incumbent (s.tree.bounds id k.box) outcome }

/-- The state after it is done what was decided. -/
def act (k : SearchTask K L n m) (s : Search K L n) (id : Nat) : Decision K n → Search K L n
  | .close state =>
    { s.setState id state with
      statistics := s.statistics.oneMore state
      rootUnbounded := if state = .terminal then true else s.rootUnbounded }
  | .settle values => k.settle s id values
  | .split j v => s.branch id j v

variable {k : SearchTask K L n m} {s : Search K L n} {id : Nat}

theorem accept_eq (k : SearchTask K L n m) (s : Search K L n) (id : Nat) (values : Vector K n) :
    k.accept s id values =
      k.act (s.tally fun t => { t with
        simplexIterations :=
          t.simplexIterations + k.extraIterations (s.tree.bounds id k.box) values }) id
        (k.acceptance (s.tree.bounds id k.box) values) := by
  unfold accept acceptance extraIterations
  cases k.furthestColumn values with
  | none => rfl
  | some j =>
    dsimp only
    generalize k.solver (k.fixAt (s.tree.bounds id k.box) values) = again
    obtain ⟨verdict, iterations⟩ := again
    cases verdict <;> rfl

/-- Processing a node solves its relaxation, and then does what is decided. -/
theorem process_eq (k : SearchTask K L n m) (s : Search K L n) (id : Nat) (outcome : Outcome K n) :
    k.process s id outcome =
      k.act (k.solved s id outcome) id
        (k.decision s.incumbent (s.tree.bounds id k.box) (s.tree.isRoot id) outcome.verdict) := by
  obtain ⟨verdict, iterations⟩ := outcome
  cases verdict with
  | infeasible | failed => rfl
  | unbounded =>
    unfold process decision
    dsimp only
    show (if s.tree.isRoot id = true then _ else _) = _
    cases s.tree.isRoot id <;> rfl
  | optimal objective values =>
    let outcome : Outcome K n := ⟨.optimal objective values, iterations⟩
    -- the iterations may be counted before the bound of the node is set, or after
    have counted (extra : Nat) : (k.relaxed (s.countIterations outcome) id (s.tree.isRoot id)
          objective).tally (fun t => { t with simplexIterations := t.simplexIterations + extra }) =
        (k.relaxed s id (s.tree.isRoot id) objective).tally fun t =>
          { t with simplexIterations := t.simplexIterations + (iterations + extra) } := by
      cases s.tree.isRoot id <;>
        simp [relaxed, Search.countIterations, Search.tally, Nat.add_assoc, outcome]
    have kept := relaxed_relaxed k (s.countIterations outcome) id (s.tree.isRoot id) objective
    show k.processRelaxed (s.countIterations outcome) id (s.tree.isRoot id) objective values = _
    rw [processRelaxed_eq]
    unfold decision solved iterationsOn
    dsimp only
    rw [kept.incumbent]
    show (if k.canImprove s.incumbent _ = true then _ else _) = _
    cases k.canImprove s.incumbent (k.boundOf objective : L) with
    | false =>
      rw [← counted]
      rfl
    | true =>
      cases k.branchingColumn values with
      | none =>
        simp only [Option.isNone_none, Bool.and_self, if_true]
        rw [← counted, accept_eq, kept.bounds]
        rfl
      | some j =>
        rw [← counted]
        generalize k.relaxed (s.countIterations outcome) id (s.tree.isRoot id) objective = last
        have uncounted : (last.tally fun t => { t with
            simplexIterations := t.simplexIterations + 0 }) = last := rfl
        exact congrArg (Search.branch · id j values[j]) uncounted.symm

end SearchTask

end Milp
