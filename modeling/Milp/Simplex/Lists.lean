import Milp.Simplex.Run

/-!
# Limits given as lists

The limits of all columns of the working problem are one list in the order of the columns: first
those of the structural columns, then those of the rows, then those of the artificial columns that
are in use. Where the structural part is given as a list of another length, the rest moves with it.
A list that is too long displaces the limits of the rows. One that is too short leaves the last
columns without a limit, and then there is an answer only if that limit is never asked for.
-/

namespace Milp

namespace SimplexState

variable {K L : Type} [Scalar K] [Limits L K] {n m : Nat}

/-! ## Displaced limits -/

/-- The rank of a column among those in use; none for an artificial column that is not. -/
def rankInUse? (s : SimplexState K L n m) : Column n m → Option Nat
  | .structural j => some j
  | .logical i => some (n + i)
  | .artificial i =>
    if s.signs[i].isSome then some (n + m + (s.signs.toList.take i).countP (·.isSome)) else none

/-- The limits of all columns in use, the first ones given as a list. -/
def limitList (s : SimplexState K L n m) (given rows : List L) (artificial : L) : List L :=
  given ++ rows ++ List.replicate s.artificialCount artificial

/-- The upper limits of all columns in use, the first ones given as a list. -/
def upperList (p : Relaxation K L n m) (s : SimplexState K L n m) (upper : List L) : List L :=
  s.limitList upper p.rows.upper.toList Limits.above

/-- The lower limits of all columns in use, the first ones given as a list. -/
def lowerList (p : Relaxation K L n m) (s : SimplexState K L n m) (lower : List L) : List L :=
  s.limitList lower p.rows.lower.toList (Limits.ofScalar 0)

/-- The state with the limits of every column in use read off two lists. -/
def displace (p : Relaxation K L n m) (s : SimplexState K L n m) (lower upper : List L) :
    SimplexState K L n m :=
  let lowers := (s.lowerList p lower).toArray
  let uppers := (s.upperList p upper).toArray
  (Column.all n m).foldl
    (fun s' c => match s.rankInUse? c with
      | none => s'
      | some i => s'.modify c fun cell =>
        { cell with lower := lowers.getD i cell.lower, upper := uppers.getD i Limits.above })
    s

/-! ## Missing limits -/

/-- Whether a column in use has no upper limit in a list. -/
def isMissing (p : Relaxation K L n m) (s : SimplexState K L n m) (upper : List L)
    (c : Column n m) : Bool :=
  (s.rankInUse? c).any fun i => (s.upperList p upper).length ≤ i

/-- Whether pricing asks for the upper limit of a column: of every nonbasic column, or of those up to
the first that qualifies. -/
def pricingAsks (s : SimplexState K L n m) (entrant : Option (Entrant K n m)) (c : Column n m) :
    Bool :=
  (s.cell c).place != .basic
    && (!s.entersFirst || entrant.all fun e => c.rank ≤ e.column.rank)

/-- Whether the ratio test asks for the upper limit of the column at a basic position: where its
coefficient counts and it rises. -/
def ratioTestAsks (direction : K) (alpha : Vector K m) (position : Fin m) : Bool :=
  let a := alpha[position]
  !decide (Scalar.abs a ≤ pivotTolerance alpha) && decide (0 < -direction * a)

/-- Whether a step asks for the upper limit of a column of some kind. -/
def stepAsks (p : Relaxation K L n m) (t : Tolerance) (kind : Column n m → Bool)
    (s : SimplexState K L n m) : Bool :=
  let entrant := s.price p t s.multipliers s.entersFirst
  (Column.all n m).any (fun c => kind c && s.pricingAsks entrant c)
    || entrant.any fun e =>
      let alpha := s.inverse.ftran (s.entries p e.column)
      (List.finRange m).any fun i => kind s.basic[i] && ratioTestAsks e.direction alpha i

/-- Whether a phase asks for the upper limit of a column of some kind, in as many steps as are
left. -/
def phaseAsks (p : Relaxation K L n m) (t : Tolerance) (kind : Column n m → Bool) :
    Nat → SimplexState K L n m → Bool
  | 0, _ => false
  | left + 1, s =>
    match s.refresh? p with
    | none => false
    | some s => s.stepAsks p t kind ||
      match s.step p t with
      | .inl _ => false
      | .inr s => phaseAsks p t kind left s

/-- The end of a run from a state in which some upper limits are missing: none where one of them is
asked for. Ending optimal, and closing the artificial columns, asks for all of them. -/
def runMissing? (p : Relaxation K L n m) (t : Tolerance) (limit : Nat)
    (missing : Column n m → Bool) (s : SimplexState K L n m) :
    Option (Ending × SimplexState K L n m) :=
  let (first, last) :=
    if s.artificialCount = 0 then (s.forCost p, s.minimise p t limit)
    else (s.forFeasibility, s.reachFeasibility p t limit)
  if last.1 = .optimal || first.phaseAsks p t missing limit then none else some last

end SimplexState

namespace Relaxation

variable {K L : Type} [Scalar K] [Limits L K] {n m : Nat}

/-- Whether the starting point can be found with limits given as lists: every column has a lower
limit, and an upper limit where the lower one is not finite. -/
def startsWithin (n : Nat) (lower upper : List L) : Bool :=
  (List.range n).all fun j => lower[j]?.any fun l => Limits.isFinite l || j < upper.length

/-- The answer within limits given as lists; none where a limit that is missing is asked for. -/
def solveLists? (p : Relaxation K L n m) (t : Tolerance) (limit : Nat) (lower upper : List L) :
    Option (Outcome K n) :=
  let box := Box.ofLists n lower upper
  let start := (SimplexState.start p box t).displace p lower upper
  if (lower.zip upper).any fun b => b.2 < b.1 then some ⟨.infeasible, 0⟩
  else if !startsWithin n lower upper then none
  else
    let last :=
      if n ≤ upper.length then some (start.run p t limit)
      else start.runMissing? p t limit (start.isMissing p upper)
    last.map fun last => ⟨p.verdict box last, last.2.iterations⟩

end Relaxation

end Milp
