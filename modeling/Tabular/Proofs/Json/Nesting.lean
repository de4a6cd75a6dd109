/- How deep values nest, and what holds of all their leaves. -/
import Tabular.Proofs.Json.Keyed

namespace Tabular.Json
variable {P Q : Value → Prop} {ms : Members} {key : String} {v : Value} {n : Nat}

@[elab_as_elim, induction_eliminator]
theorem Value.ind {motive : Value → Prop} (null : motive .null) (bool : ∀ b, motive (.bool b))
    (num : ∀ n, motive (.num n)) (str : ∀ text, motive (.str text))
    (arr : ∀ items, (∀ v ∈ items, motive v) → motive (.arr items))
    (obj : ∀ ms : Members, (∀ m ∈ ms, motive m.2) → motive (.obj ms)) (v : Value) : motive v :=
  Value.rec (motive_1 := motive) (motive_2 := fun items => ∀ v ∈ items, motive v)
    (motive_3 := fun ms => ∀ m ∈ ms, motive m.2) (motive_4 := fun m => motive m.2)
    null bool num str arr obj
    (fun _ hmem => absurd hmem List.not_mem_nil)
    (fun _ _ hv hvs => List.forall_mem_cons.mpr ⟨hv, hvs⟩)
    (fun _ hmem => absurd hmem List.not_mem_nil)
    (fun _ _ hm hms => List.forall_mem_cons.mpr ⟨hm, hms⟩)
    (fun _ _ hv => hv) v

mutual

/-- How many lists and objects stand inside one another. -/
def Value.nesting : Value → Nat
  | .arr items => Value.nestingItems items + 1
  | .obj ms => Value.nestingMembers ms + 1
  | _ => 0

def Value.nestingItems : List Value → Nat
  | [] => 0
  | v :: vs => max v.nesting (Value.nestingItems vs)

def Value.nestingMembers : List (String × Value) → Nat
  | [] => 0
  | (_, v) :: ms => max v.nesting (Value.nestingMembers ms)

end

theorem Value.nestingItems_le (items : List Value) :
    Value.nestingItems items ≤ n ↔ ∀ v ∈ items, v.nesting ≤ n := by
  induction items with
  | nil =>
    simp only [Value.nestingItems, Nat.zero_le, List.not_mem_nil, false_implies, implies_true]
  | cons v vs ih => simp only [Value.nestingItems, Nat.max_le, ih, List.forall_mem_cons]

theorem Value.nestingMembers_le (ms : Members) :
    Value.nestingMembers ms ≤ n ↔ ∀ m ∈ ms, m.2.nesting ≤ n := by
  induction ms with
  | nil =>
    simp only [Value.nestingMembers, Nat.zero_le, List.not_mem_nil, false_implies, implies_true]
  | cons m ms ih => simp only [Value.nestingMembers, Nat.max_le, ih, List.forall_mem_cons]

theorem Value.nesting_arr_le {items : List Value} :
    (Value.arr items).nesting ≤ n + 1 ↔ ∀ v ∈ items, v.nesting ≤ n := by
  rw [Value.nesting, Nat.succ_le_succ_iff, Value.nestingItems_le]

theorem Value.nesting_obj_le :
    (Value.obj ms).nesting ≤ n + 1 ↔ ∀ m ∈ ms, m.2.nesting ≤ n := by
  rw [Value.nesting, Nat.succ_le_succ_iff, Value.nestingMembers_le]

mutual

/-- Each leaf of a value, which is neither a list nor an object, has a property. -/
def Value.Leaves (P : Value → Prop) : Value → Prop
  | .arr items => Value.LeavesItems P items
  | .obj ms => Value.LeavesMembers P ms
  | v => P v

def Value.LeavesItems (P : Value → Prop) : List Value → Prop
  | [] => True
  | v :: vs => v.Leaves P ∧ Value.LeavesItems P vs

def Value.LeavesMembers (P : Value → Prop) : List (String × Value) → Prop
  | [] => True
  | (_, v) :: ms => v.Leaves P ∧ Value.LeavesMembers P ms

end

theorem Value.leaves_arr {items : List Value} :
    (Value.arr items).Leaves P ↔ ∀ v ∈ items, v.Leaves P := by
  rw [Value.Leaves]
  induction items with
  | nil => simp only [Value.LeavesItems, List.not_mem_nil, false_implies, implies_true]
  | cons v vs ih => simp only [Value.LeavesItems, ih, List.forall_mem_cons]

theorem Value.leaves_obj : (Value.obj ms).Leaves P ↔ ∀ m ∈ ms, m.2.Leaves P := by
  rw [Value.Leaves]
  induction ms with
  | nil => simp only [Value.LeavesMembers, List.not_mem_nil, false_implies, implies_true]
  | cons m ms ih => simp only [Value.LeavesMembers, ih, List.forall_mem_cons]

theorem Value.Leaves.prune (h : v.Leaves P) : v.prune.Leaves P := by
  induction v with
  | arr items ih =>
      rw [Value.prune_arr, Value.leaves_arr, List.forall_mem_map]
      exact fun v hv => ih v hv (Value.leaves_arr.mp h v hv)
  | obj ms ih =>
      rw [Value.prune_obj, Value.leaves_obj]
      intro m hm
      obtain ⟨n, hn, rfl⟩ := mem_pruneMembers hm
      exact ih n hn (Value.leaves_obj.mp h n hn)
  | _ => exact h

theorem Value.nesting_prune_le (h : v.nesting ≤ n) : v.prune.nesting ≤ n := by
  induction v generalizing n with
  | arr items ih =>
      cases n with
      | zero => exact absurd h (Nat.not_succ_le_zero _)
      | succ n =>
          rw [Value.prune_arr, Value.nesting_arr_le, List.forall_mem_map]
          exact fun v hv => ih v hv (Value.nesting_arr_le.mp h v hv)
  | obj ms ih =>
      cases n with
      | zero => exact absurd h (Nat.not_succ_le_zero _)
      | succ n =>
          rw [Value.prune_obj, Value.nesting_obj_le]
          intro m hm
          obtain ⟨m', hm', rfl⟩ := mem_pruneMembers hm
          exact ih m' hm' (Value.nesting_obj_le.mp h m' hm')
  | _ => exact h

/-- A leaf that is not a float. -/
def Value.NotFloat : Value → Prop
  | .num (.float _ _) => False
  | _ => True

/-- Every number of the value is an integer, which has 64 bits, signed or unsigned. -/
abbrev Value.Integral (v : Value) : Prop := v.Leaves Value.NotFloat

/-- The value nests at most `n` lists and objects and has no float. -/
structure Value.Tame (n : Nat) (v : Value) : Prop where
  nesting_le : v.nesting ≤ n
  integral : v.Integral

theorem Value.tame_arr {items : List Value} :
    (Value.arr items).Tame (n + 1) ↔ ∀ v ∈ items, v.Tame n := by
  constructor
  · intro h v hv
    exact ⟨Value.nesting_arr_le.mp h.1 v hv, Value.leaves_arr.mp h.2 v hv⟩
  · intro h
    exact ⟨Value.nesting_arr_le.mpr fun v hv => (h v hv).1,
      Value.leaves_arr.mpr fun v hv => (h v hv).2⟩

theorem Value.tame_obj : (Value.obj ms).Tame (n + 1) ↔ ∀ m ∈ ms, m.2.Tame n := by
  constructor
  · intro h m hm
    exact ⟨Value.nesting_obj_le.mp h.1 m hm, Value.leaves_obj.mp h.2 m hm⟩
  · intro h
    exact ⟨Value.nesting_obj_le.mpr fun m hm => (h m hm).1,
      Value.leaves_obj.mpr fun m hm => (h m hm).2⟩

@[simp] theorem Value.tame_null (n : Nat) : Value.null.Tame n := ⟨Nat.zero_le n, trivial⟩

@[simp] theorem Value.tame_bool (n : Nat) (b : Bool) : (Value.bool b).Tame n :=
  ⟨Nat.zero_le n, trivial⟩

@[simp] theorem Value.tame_str (n : Nat) (text : String) : (Value.str text).Tame n :=
  ⟨Nat.zero_le n, trivial⟩

theorem Value.Tame.prune (h : v.Tame n) : v.prune.Tame n :=
  ⟨Value.nesting_prune_le h.1, Value.Leaves.prune h.2⟩

theorem Value.Tame.members (h : v.Tame (n + 1)) : ∀ m ∈ v.members, m.2.Tame n := by
  cases v with
  | obj ms => exact Value.tame_obj.mp h
  | _ => exact fun _ hm => absurd hm List.not_mem_nil

theorem Members.tame_read (h : ∀ m ∈ ms, m.2.Tame n) (key : String) : (ms.read key).Tame n := by
  rw [Members.read]
  cases hget : ms.get? key with
  | none => exact Value.tame_null n
  | some v => exact h _ (Members.mem_of_get? hget)

theorem Members.tame_put (h : ∀ m ∈ ms, m.2.Tame n) (hv : v.Tame n) (key : String) :
    ∀ m ∈ ms.put key v, m.2.Tame n := by
  intro m hm
  rcases Members.mem_put hm with rfl | hm
  · exact hv
  · exact h m hm

theorem Value.Tame.revise {f : Members → Members} (h : v.Tame (n + 1))
    (hf : ∀ ms : Members, (∀ m ∈ ms, m.2.Tame n) → ∀ m ∈ f ms, m.2.Tame n) :
    (Value.revise f v).Tame (n + 1) := by
  cases v with
  | obj ms => exact Value.tame_obj.mpr (hf ms (Value.tame_obj.mp h))
  | _ => exact h

end Tabular.Json
