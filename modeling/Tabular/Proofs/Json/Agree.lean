/- Equality of documents up to the order of keys. -/
import Tabular.Proofs.Json.Keyed

namespace Tabular.Json
variable {ms : Members} {key : String} {v : Value}

/-- Only what is not a number differs from itself. -/
theorem beq_self_of_isFinite {x : Float} (h : x.isFinite = true) : (x == x) = true := by
  change Float.Model.UnpackedFloat.beq x.toModel.unpack x.toModel.unpack = true
  change Float.Model.UnpackedFloat.isFinite x.toModel.unpack = true at h
  generalize x.toModel.unpack = u at h ⊢
  cases u with
  | infinity s => cases h
  | notANumber => cases h
  | zero s => rfl
  | finite s m e hm =>
      have hsame : (compare e e).then (compare m m) = .eq := by
        rw [Std.compare_self, Std.compare_self, Ordering.then_self]
      cases s with
      | negative =>
          change (some ((compare e e).then (compare m m)).swap == some .eq) = true
          rw [hsame]
          rfl
      | positive =>
          change (some ((compare e e).then (compare m m)) == some .eq) = true
          rw [hsame]
          rfl

theorem Number.agrees_self (n : Number) : n.agrees n = true := by
  cases n with
  | int n h => exact beq_self_eq_true n
  | float x h => exact beq_self_of_isFinite h

mutual

theorem Value.agrees_self : ∀ {v : Value}, v.Keyed → v.agrees v = true
  | .null, _ => rfl
  | .bool b, _ => beq_self_eq_true b
  | .num n, _ => Number.agrees_self n
  | .str text, _ => beq_self_eq_true text
  | .arr _, h => Value.agreeItems_self h
  | .obj ms, h => by
      rw [Value.agrees, beq_self_eq_true, Bool.true_and]
      exact Value.agreeMembers_of_mem h.2 fun m hm => Members.get?_of_mem h.1 hm

theorem Value.agreeItems_self : ∀ {items : List Value},
    Value.KeyedItems items → Value.agreeItems items items = true
  | [], _ => rfl
  | _ :: _, h => by
      rw [Value.agreeItems, Value.agrees_self h.1, Value.agreeItems_self h.2]
      rfl

-- The second object stays whole while the first is taken apart.
theorem Value.agreeMembers_of_mem : ∀ {as : List (String × Value)} {bs : Members},
    Value.KeyedMembers as → (∀ m ∈ as, bs.get? m.1 = some m.2) → Value.agreeMembers as bs = true
  | [], _, _, _ => rfl
  | (key, a) :: as, bs, h, hmem => by
      obtain ⟨ha, has⟩ := List.forall_mem_cons.mp hmem
      simp only [Value.agreeMembers, ha, Value.agrees_self h.1, Bool.true_and]
      exact Value.agreeMembers_of_mem h.2 has

end

theorem Value.agreeMembers_of_forall {as bs : Members}
    (h : ∀ m ∈ as, ∃ b, bs.get? m.1 = some b ∧ m.2.agrees b = true) :
    Value.agreeMembers as bs = true := by
  induction as with
  | nil => rfl
  | cons m as ih =>
      obtain ⟨⟨b, hget, hagrees⟩, has⟩ := List.forall_mem_cons.mp h
      simp only [Value.agreeMembers, hget, hagrees, ih has, Bool.true_and]

theorem Value.agrees_obj {as bs : Members} (hlength : as.length = bs.length)
    (h : ∀ m ∈ as, ∃ b, bs.get? m.1 = some b ∧ m.2.agrees b = true) :
    (Value.obj as).agrees (.obj bs) = true := by
  rw [Value.agrees, hlength, beq_self_eq_true, Value.agreeMembers_of_forall h]
  rfl

theorem Value.agreeMembers_get? {as bs : Members} {a : Value}
    (h : Value.agreeMembers as bs = true) (ha : as.get? key = some a) :
    ∃ b, bs.get? key = some b ∧ a.agrees b = true := by
  induction as with
  | nil => cases ha
  | cons m as ih =>
      obtain ⟨k, a'⟩ := m
      rw [Value.agreeMembers, Bool.and_eq_true] at h
      rw [Members.get?_cons] at ha
      by_cases hk : k = key
      · subst hk
        rw [if_pos rfl] at ha
        cases ha
        cases hb : bs.get? k with
        | none =>
            rw [hb] at h
            exact absurd h.1 Bool.false_ne_true
        | some b =>
            rw [hb] at h
            exact ⟨b, rfl, h.1⟩
      · rw [if_neg hk] at ha
        exact ih h.2 ha

theorem Value.agrees_get? {as bs : Members} {a : Value}
    (h : (Value.obj as).agrees (.obj bs) = true) (ha : as.get? key = some a) :
    ∃ b, bs.get? key = some b ∧ a.agrees b = true := by
  rw [Value.agrees, Bool.and_eq_true] at h
  exact Value.agreeMembers_get? h.2 ha

end Tabular.Json
