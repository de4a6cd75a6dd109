/- What is read from text gives no key twice. -/
import Tabular.Json.Reader
import Tabular.Proofs.Json.Keyed

namespace Tabular.Json
variable {α β : Type} {P : α → Prop} {Q : β → Prop} {r : Reading α}

/-- What is read, if anything is, has a property. -/
def Reading.Yields (P : α → Prop) (r : Reading α) : Prop := ∀ a cs, r = .ok (a, cs) → P a

theorem Reading.Yields.ok {a : α} (h : P a) (cs : List Char) : Reading.Yields P (.ok (a, cs)) := by
  intro a' cs' heq
  cases heq
  exact h

theorem Reading.Yields.error (stop : Stop) : Reading.Yields P (.error stop) := by
  intro a cs heq
  cases heq

theorem Reading.Yields.andThen {next : α → List Char → Reading β}
    (h : ∀ a cs, r = .ok (a, cs) → (next a cs).Yields Q) : (r.andThen next).Yields Q := by
  cases r with
  | ok read => exact h read.1 read.2 rfl
  | error stop => exact Reading.Yields.error stop

theorem Reading.Yields.map (h : r.Yields P) {f : α → β} (hf : ∀ a, P a → Q (f a)) :
    (r.map f).Yields Q := by
  apply Reading.Yields.andThen
  intro a cs heq
  exact Reading.Yields.ok (hf a (h a cs heq)) cs

theorem Reading.Yields.map_of_forall {f : α → β} (hf : ∀ a, Q (f a)) : (r.map f).Yields Q := by
  apply Reading.Yields.andThen
  intro a cs _
  exact Reading.Yields.ok (hf a) cs

theorem readWord_yields {S : Value → Prop} {v : Value} (hv : S v) (word cs : List Char) :
    (readWord v word cs).Yields S := by
  induction word generalizing cs with
  | nil => exact Reading.Yields.ok hv cs
  | cons w word ih =>
      cases cs with
      | nil => exact Reading.Yields.error _
      | cons c cs =>
          rw [readWord]
          split
          · exact ih cs
          · exact Reading.Yields.error _

theorem readItems_yields {S : Value → Prop} {read : List Char → Reading Value}
    (h : ∀ cs, (read cs).Yields S) (fuel : Nat) (cs : List Char) :
    (readItems read fuel cs).Yields fun items => ∀ v ∈ items, S v := by
  induction fuel generalizing cs with
  | zero => exact Reading.Yields.error _
  | succ fuel ih =>
      rw [readItems]
      apply Reading.Yields.andThen
      intro v cs hread
      have hv : S v := h _ v cs hread
      repeat' split
      all_goals first
        | exact Reading.Yields.error _
        | exact Reading.Yields.ok (List.forall_mem_singleton.mpr hv) _
        | exact (ih _).map fun items hitems => List.forall_mem_cons.mpr ⟨hv, hitems⟩

theorem readMembers_yields {S : Value → Prop} {read : List Char → Reading Value}
    (h : ∀ cs, (read cs).Yields S) (fuel : Nat) (cs : List Char) :
    (readMembers read fuel cs).Yields fun pairs => ∀ p ∈ pairs, S p.2 := by
  induction fuel generalizing cs with
  | zero => exact Reading.Yields.error _
  | succ fuel ih =>
      rw [readMembers]
      apply Reading.Yields.andThen
      intro key cs _
      apply Reading.Yields.andThen
      intro v cs hread
      have hone : ∀ p ∈ [(key, v)], S p.2 := List.forall_mem_singleton.mpr (h _ v cs hread)
      have hmore : ∀ pairs : List (String × Value), (∀ p ∈ pairs, S p.2) →
          ∀ p ∈ (key, v) :: pairs, S p.2 :=
        fun _ hpairs => List.forall_mem_cons.mpr ⟨h _ v cs hread, hpairs⟩
      repeat' split
      all_goals first
        | exact Reading.Yields.error _
        | exact Reading.Yields.ok hone _
        | exact (ih _).map hmore

theorem Members.ofPairs_eq (pairs : List (String × Value)) :
    Members.ofPairs pairs = Members.putAll [] pairs := rfl

theorem keyed_ofPairs {pairs : List (String × Value)} (h : ∀ p ∈ pairs, p.2.Keyed) :
    (Value.obj (Members.ofPairs pairs)).Keyed := by
  rw [Members.ofPairs_eq]
  exact Members.keyed_putAll ⟨List.nodup_nil, trivial⟩ h

theorem readList_yields {S : Value → Prop} {read : List Char → Reading Value}
    (h : ∀ cs, (read cs).Yields S) (fuel : Nat) (cs : List Char) :
    (readList read fuel cs).Yields fun items => ∀ v ∈ items, S v := by
  rw [readList]
  repeat' split
  · exact Reading.Yields.error _
  · exact Reading.Yields.ok (fun _ hmem => absurd hmem List.not_mem_nil) _
  · exact readItems_yields h fuel _

theorem readObject_yields {S : Value → Prop} {read : List Char → Reading Value}
    (h : ∀ cs, (read cs).Yields S) (fuel : Nat) (cs : List Char) :
    (readObject read fuel cs).Yields fun ms => ∃ pairs : List (String × Value),
      ms = Members.ofPairs pairs ∧ ∀ p ∈ pairs, S p.2 := by
  rw [readObject]
  repeat' split
  · exact Reading.Yields.error _
  · exact (readMembers_yields h fuel _).map fun pairs hpairs => ⟨pairs, rfl, hpairs⟩
  · exact Reading.Yields.ok ⟨[], rfl, fun _ hmem => absurd hmem List.not_mem_nil⟩ _
  · exact Reading.Yields.error _

/-- What holds of leaves, and of lists and objects one level above what they hold, holds of
    everything that is read. -/
theorem readValue_yields {S : Nat → Value → Prop} (null : ∀ n, S n .null)
    (bool : ∀ n b, S n (.bool b)) (num : ∀ n i, S n (.num i)) (str : ∀ n text, S n (.str text))
    (arr : ∀ n items, (∀ v ∈ items, S n v) → S (n + 1) (.arr items))
    (obj : ∀ n pairs, (∀ p ∈ pairs, S n p.2) → S (n + 1) (.obj (Members.ofPairs pairs)))
    (fuel depth : Nat) (cs : List Char) : (readValue fuel depth cs).Yields (S depth) := by
  induction depth using Nat.strongRecOn generalizing cs with
  | _ depth ih =>
      rw [readValue.eq_def]
      -- one goal for each character that a value may start with
      repeat' split
      all_goals first
        | exact Reading.Yields.error _
        | exact readWord_yields (null _) _ _
        | exact readWord_yields (bool _ _) _ _
        | exact Reading.Yields.map_of_forall fun text => str _ (String.ofList text)
        | exact (readList_yields (ih _ (Nat.lt_succ_self _)) fuel _).map (arr _)
        | exact (readObject_yields (ih _ (Nat.lt_succ_self _)) fuel _).map
            fun _ ⟨pairs, heq, hpairs⟩ => heq ▸ obj _ pairs hpairs
        | exact Reading.Yields.map_of_forall (num _)

theorem exists_readValue_of_ofChars {cs : List Char} {v : Value} (h : Value.ofChars cs = .ok v) :
    ∃ rest, readValue cs.length nestingLimit cs = .ok (v, rest) := by
  rw [Value.ofChars] at h
  split at h
  · cases h
  · rename_i v' rest hread
    split at h
    · cases h
      exact ⟨rest, hread⟩
    · cases h

theorem Value.keyed_ofChars {cs : List Char} {v : Value} (h : Value.ofChars cs = .ok v) :
    v.Keyed := by
  obtain ⟨rest, hread⟩ := exists_readValue_of_ofChars h
  exact readValue_yields (S := fun _ => Value.Keyed) (fun _ => Value.keyed_null)
    (fun _ => Value.keyed_bool) (fun _ => Value.keyed_num) (fun _ => Value.keyed_str)
    (fun _ _ hitems => Value.keyed_arr.mpr hitems) (fun _ _ hpairs => keyed_ofPairs hpairs)
    _ _ _ v rest hread

/-- Every text that is read as a value is a document with that value. -/
theorem Document.exists_of_ofText {text : String} {v : Value} (h : Value.ofText text = .ok v) :
    ∃ d : Document, d.value = v := ⟨⟨v, Value.keyed_ofChars h⟩, rfl⟩

end Tabular.Json
