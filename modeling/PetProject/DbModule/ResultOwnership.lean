import PetProject.DbModule.PgResult
import PetProject.Framework.Ledger
import PetProject.Framework.Machine

/-!
# Ownership of results

Any number of `PG_result` objects that are constructed, moved, assigned to one another and
destroyed. A result that is moved takes its `PGresult` along; the one that the destination of a
move assignment had before is overwritten, and nobody clears it any more.
-/

namespace PetProject.DbModule

open Framework

/-- `PG_result` with the pointer itself, and not what it points to. -/
structure ResultObject (τ : Type*) where
  result : Option τ
  dbName : Text
  success : Bool
  nFields : Nat
  nTuples : Nat

namespace ResultObject

variable {τ : Type*}

/-- The default constructor of `PG_result`. -/
def empty : ResultObject τ := ⟨none, [], false, 0, 0⟩

/-- The constructor from a `PGresult`. -/
def make (contents : τ → PGresult) (res : Option τ) (dbName : Text) : ResultObject τ :=
  let made := PgResult.make (res.map contents) dbName
  ⟨res, made.dbName, made.success, made.nFields, made.nTuples⟩

/-- `construct_assign`: what the destination and what the source are afterwards. -/
def constructAssign (other : ResultObject τ) : ResultObject τ × ResultObject τ :=
  (⟨other.result, other.dbName, other.success, other.nFields, other.nTuples⟩,
    ⟨none, [], false, 0, 0⟩)

private theorem constructAssign_eq (other : ResultObject τ) : constructAssign other = (other, empty) := rfl

end ResultObject

/-- The objects of a program, the `PGresult`s handed to them, and those passed to `PQclear`. -/
structure ResultObjects (ι τ : Type*) where
  objects : ι → Option (ResultObject τ)
  handed : List τ
  cleared : List τ

inductive ResultOp (ι τ : Type*)
  | default (a : ι)
  | construct (a : ι) (res : Option τ) (dbName : Text)
  | moveConstruct (a b : ι)
  | moveAssign (a b : ι)
  | destroy (a : ι)

namespace ResultObjects

variable {ι τ : Type*}

def init (ι τ : Type*) : ResultObjects ι τ := ⟨fun _ => none, [], []⟩

/-- `PQclear`, which ignores a null pointer. -/
def pqClear (s : ResultObjects ι τ) (res : Option τ) : ResultObjects ι τ :=
  { s with cleared := s.cleared ++ res.toList }

/-- Each `PGresult` handed over is owned by exactly one object, or has been cleared exactly once. -/
def OwnedOrCleared [DecidableEq τ] (s : ResultObjects ι τ) : Prop :=
  ∀ x ∈ s.handed,
    ((∃! a, ∃ p, s.objects a = some p ∧ p.result = some x) ∧ x ∉ s.cleared) ∨
    ((∀ a p, s.objects a = some p → p.result ≠ some x) ∧ s.cleared.count x = 1)

/-- Besides, nothing is left over once all objects are gone. -/
structure ReleasedOnce [DecidableEq τ] (s : ResultObjects ι τ) : Prop where
  owned : s.OwnedOrCleared
  cleared_at_end : (∀ a, s.objects a = none) → ∀ x ∈ s.handed, s.cleared.count x = 1

/-- A move assignment to another object finds no result there. -/
def AssignsOntoEmpty (s : ResultObjects ι τ) : ResultOp ι τ → Prop
  | .moveAssign a b => a = b ∨ ∀ p, s.objects a = some p → p.result = none
  | _ => True

/-! ## The objects as owners of handles -/

def ledger (s : ResultObjects ι τ) : Ledger τ ι :=
  ⟨fun a => (s.objects a).bind ResultObject.result, s.handed, s.cleared⟩

private theorem held_ledger {s : ResultObjects ι τ} {a : ι} {x : τ} :
    s.ledger.held a = some x ↔ ∃ p, s.objects a = some p ∧ p.result = some x :=
  Option.bind_eq_some_iff

private theorem ownedOrCleared_iff [DecidableEq τ] {s : ResultObjects ι τ} :
    s.OwnedOrCleared ↔ s.ledger.EachOnce := by
  refine forall_congr' fun x => imp_congr_right fun _ => or_congr ?_ ?_
  · simp only [held_ledger]
    rfl
  · simp only [ne_eq, held_ledger, not_exists, not_and]
    rfl

private theorem releasedOnce_iff [DecidableEq τ] {s : ResultObjects ι τ} :
    s.ReleasedOnce ↔ s.ledger.EachOnce := by
  rw [← ownedOrCleared_iff]
  refine ⟨ReleasedOnce.owned, fun h => ⟨h, fun hgone x hx => ?_⟩⟩
  rcases h x hx with ⟨⟨a, ⟨p, hp, -⟩, -⟩, -⟩ | ⟨-, hcount⟩
  · rw [hgone a] at hp
    cases hp
  · exact hcount

private theorem exclusive_init (ι τ : Type*) : (init ι τ).ledger.Exclusive where
  unique i j x hi := by cases hi
  known i x hi := by cases hi
  apart i x hi := by cases hi
  nodup := List.nodup_nil
  released_handed x hx := (List.not_mem_nil hx).elim

/-! ## The operations -/

variable [DecidableEq ι]

def set (s : ResultObjects ι τ) (a : ι) (p : Option (ResultObject τ)) : ResultObjects ι τ :=
  { s with objects := Function.update s.objects a p }

/-- The object gets what was in the other one. -/
def move (s : ResultObjects ι τ) (a b : ι) (other : ResultObject τ) : ResultObjects ι τ :=
  let moved := ResultObject.constructAssign other
  (s.set a (some moved.1)).set b (some moved.2)

private theorem ledger_set (s : ResultObjects ι τ) (a : ι) (p : Option (ResultObject τ)) :
    (s.set a p).ledger =
      ⟨Function.update s.ledger.held a (p.bind ResultObject.result), s.handed, s.cleared⟩ := by
  rw [Ledger.mk.injEq]
  refine ⟨funext fun b => ?_, rfl, rfl⟩
  exact Function.apply_update (fun _ q => Option.bind q ResultObject.result) s.objects a p b

private theorem ledger_move (s : ResultObjects ι τ) (a : ι) {b : ι} {other : ResultObject τ}
    (hb : s.objects b = some other) :
    (s.move a b other).ledger = s.ledger.apply (.pass a b) := by
  have hheld : s.ledger.held b = other.result := by
    show (s.objects b).bind ResultObject.result = other.result
    rw [hb, Option.bind_some]
  rw [move, ResultObject.constructAssign_eq, ledger_set, ledger_set, Ledger.apply, hheld]
  rfl

variable [DecidableEq τ]

/-- One operation; `none` when the objects are not there for it, or the `PGresult` has already been
handed over. -/
def step (contents : τ → PGresult) (s : ResultObjects ι τ) :
    ResultOp ι τ → Option (ResultObjects ι τ)
  | .default a => if s.objects a = none then some (s.set a (some .empty)) else none
  | .construct a res dbName =>
    if s.objects a = none ∧ ∀ x ∈ res, x ∉ s.handed then
      some { s.set a (some (.make contents res dbName)) with handed := s.handed ++ res.toList }
    else none
  | .moveConstruct a b =>
    match s.objects a, s.objects b with
    | none, some other => some (s.move a b other)
    | _, _ => none
  | .moveAssign a b =>
    match s.objects a, s.objects b with
    | some _, some other => if a = b then some s else some (s.move a b other)
    | _, _ => none
  | .destroy a => (s.objects a).map fun p => (s.pqClear p.result).set a none

def machine (ι : Type*) {τ : Type*} [DecidableEq ι] [DecidableEq τ] (contents : τ → PGresult) :
    Machine (ResultObjects ι τ) (ResultOp ι τ) := ⟨step contents⟩

/-- What an operation does with the handles. -/
def moveOf : ResultOp ι τ → Ledger.Move τ ι
  | .default a => .receive a none
  | .construct a res _ => .receive a res
  | .moveConstruct a b => .pass a b
  | .moveAssign a b => if a = b then .stay else .pass a b
  | .destroy a => .release a

omit [DecidableEq ι] [DecidableEq τ] in
private theorem held_of_absent {s : ResultObjects ι τ} {a : ι} (ha : s.objects a = none) :
    s.ledger.held a = none := by
  show (s.objects a).bind ResultObject.result = none
  rw [ha, Option.bind_none]

omit [DecidableEq ι] [DecidableEq τ] in
private theorem held_of_present {s : ResultObjects ι τ} {a : ι} {p : ResultObject τ}
    (ha : s.objects a = some p) : s.ledger.held a = p.result := by
  show (s.objects a).bind ResultObject.result = p.result
  rw [ha, Option.bind_some]

private theorem step_simulates {contents : τ → PGresult} {s t : ResultObjects ι τ} {op : ResultOp ι τ}
    (h : s.step contents op = some t) :
    (moveOf op).Possible s.ledger ∧ t.ledger = s.ledger.apply (moveOf op) ∧
      ((moveOf op).Gentle s.ledger ↔ s.AssignsOntoEmpty op) := by
  cases op with
  | default a =>
    rw [step] at h
    split at h
    case isFalse => cases h
    case isTrue ha =>
      obtain rfl := Option.some.inj h
      refine ⟨⟨held_of_absent ha, nofun⟩, ?_, Iff.rfl⟩
      rw [ledger_set, moveOf, Ledger.apply, Option.toList_none, List.append_nil]
      rfl
  | construct a res dbName =>
    rw [step] at h
    split at h
    case isFalse => cases h
    case isTrue ha =>
      obtain rfl := Option.some.inj h
      refine ⟨⟨held_of_absent ha.1, fun y hy => ha.2 y hy⟩, ?_, Iff.rfl⟩
      have hset := ledger_set s a (some (.make contents res dbName))
      rw [moveOf, Ledger.apply]
      exact congrArg (fun L => Ledger.mk (Ledger.held L) (s.handed ++ res.toList) s.cleared) hset
  | moveConstruct a b =>
    rw [step] at h
    split at h
    case h_2 => cases h
    case h_1 other ha hb =>
      obtain rfl := Option.some.inj h
      have hab : a ≠ b := by
        rintro rfl
        rw [ha] at hb
        cases hb
      exact ⟨hab, ledger_move s a hb, iff_of_true (held_of_absent ha) trivial⟩
  | moveAssign a b =>
    rw [step] at h
    split at h
    case h_2 => cases h
    case h_1 p other ha hb =>
      rw [moveOf]
      split at h
      case isTrue hab =>
        obtain rfl := Option.some.inj h
        rw [if_pos hab]
        exact ⟨trivial, rfl, iff_of_true trivial (Or.inl hab)⟩
      case isFalse hab =>
        obtain rfl := Option.some.inj h
        rw [if_neg hab]
        refine ⟨hab, ledger_move s a hb, ?_⟩
        rw [AssignsOntoEmpty, or_iff_right hab, Ledger.Move.Gentle, held_of_present ha]
        constructor
        · rintro hp q hq
          obtain rfl := Option.some.inj (ha.symm.trans hq)
          exact hp
        · exact fun hempty => hempty p ha
  | destroy a =>
    obtain ⟨p, ha, rfl⟩ := Option.map_eq_some_iff.mp h
    refine ⟨trivial, ?_, Iff.rfl⟩
    rw [ledger_set, moveOf, Ledger.apply, held_of_present ha]
    rfl

/-- In a run every result has one owner or is cleared once throughout, and all are cleared once in
the end, exactly if no move assignment goes to another object that still has a result. -/
theorem results_released_iff (contents : τ → PGresult) (ops : List (ResultOp ι τ)) :
    (machine ι contents).Always ReleasedOnce (init ι τ) ops ↔
      (machine ι contents).Guarded AssignsOntoEmpty (init ι τ) ops := by
  refine Machine.always_iff_guarded (I := fun s => s.ledger.Exclusive) (L := fun _ => True)
    ?_ ?_ (fun _ _ => trivial) (exclusive_init ι τ) ?_
  · intro s op t hstep _ hs
    obtain ⟨hpossible, heq, -⟩ := step_simulates hstep
    rw [heq]
    exact Ledger.exclusive_apply hs hpossible
  · intro s op t hstep _ hs hreleased
    obtain ⟨hpossible, heq, hgentle⟩ := step_simulates hstep
    rw [releasedOnce_iff, hs.eachOnce_iff] at hreleased
    rw [releasedOnce_iff, heq, (Ledger.exclusive_apply hs hpossible).eachOnce_iff,
      Ledger.settled_apply_iff hs hpossible hreleased, hgentle]
  · rw [releasedOnce_iff]
    exact fun x hx => (List.not_mem_nil hx).elim

theorem occupied_destination_leaks :
    ¬∀ (contents : Nat → PGresult) (ops : List (ResultOp Nat Nat)),
      (machine Nat contents).Always ReleasedOnce (init Nat Nat) ops := by
  intro h
  have hassigned := (((h (fun _ => ⟨.tuplesOk, 1, [[['1']]], []⟩)
    [.construct 0 (some 0) ['d'], .construct 1 (some 1) ['d'], .moveAssign 0 1]).2 _ rfl).2
    _ rfl).2 _ rfl
  rcases hassigned.owned 0 (by decide) with ⟨⟨a, ⟨p, hp, hresult⟩, -⟩, -⟩ | ⟨-, hcount⟩
  · -- the first object has the second result, the other ones have none
    rcases a with _ | _ | a
    · obtain rfl := Option.some.inj hp
      cases hresult
    · obtain rfl := Option.some.inj hp
      cases hresult
    · cases hp
  · exact absurd hcount (by decide)

end ResultObjects

end PetProject.DbModule
