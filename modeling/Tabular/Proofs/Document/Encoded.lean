/- Values that are stored as text, and the documents that opening makes of them. -/
import Tabular.Proofs.Document.Places
import Tabular.Proofs.Json.Expand
import Tabular.Proofs.Json.Unique

namespace Tabular.Document
open Tabular.Json
variable {f : Value → Value} {ps : List Place} {v w : Value} {text : String} {ms ns : Members}
  {prune : Bool}

/-- A value that storing turns into text: it is neither null nor text. -/
def Opened : Value → Prop
  | .null => False
  | .str _ => False
  | _ => True

/-- What is written of a value: without its null members, where those are to be dropped. -/
def kept (prune : Bool) (v : Value) : Value := if prune then v.prune else v

@[simp] theorem kept_true (v : Value) : kept true v = v.prune := rfl

@[simp] theorem kept_false (v : Value) : kept false v = v := rfl

theorem kept_kept (prune : Bool) (v : Value) : kept prune (kept prune v) = kept prune v := by
  cases prune with
  | true => exact Value.prune_prune v
  | false => rfl

theorem keyed_kept (h : w.Keyed) : (kept prune w).Keyed := by
  cases prune with
  | true => exact h.prune
  | false => exact h

theorem leaves_kept {P : Value → Prop} (h : w.Leaves P) : (kept prune w).Leaves P := by
  cases prune with
  | true => exact h.prune
  | false => exact h

theorem opened_kept : Opened (kept prune w) ↔ Opened w := by
  cases prune <;> cases w <;> exact Iff.rfl

theorem kept_of_not_opened (h : ¬ Opened w) : kept prune w = w := by
  cases w with
  | null => cases prune <;> rfl
  | str text => cases prune <;> rfl
  | _ => exact absurd trivial h

theorem encodeValue_of_opened (h : Opened w) :
    encodeValue prune w = .str (kept prune w).text := by
  cases w with
  | null => exact h.elim
  | str text => exact h.elim
  | _ => rfl

theorem encodeValue_of_not_opened (h : ¬ Opened w) : encodeValue prune w = w := by
  cases w with
  | null => rfl
  | str text => rfl
  | _ => exact absurd trivial h

theorem not_opened_encodeValue (prune : Bool) (w : Value) : ¬ Opened (encodeValue prune w) := by
  by_cases hopen : Opened w
  · rw [encodeValue_of_opened hopen]
    exact id
  · rwa [encodeValue_of_not_opened hopen]

theorem keyed_encodeValue (w : Value) : (encodeValue prune w).Keyed := by
  cases w <;> trivial

theorem integral_encodeValue (w : Value) : (encodeValue prune w).Integral := by
  cases w <;> trivial

/-- A value without encoded texts that is stored as text is opened again, unless it nests too
deep. -/
theorem expand_encodeValue (hkeyed : w.Keyed) (hw : w.Integral) (hplain : w.Plain) :
    ((kept prune w).nesting ≤ nestingLimit → (encodeValue prune w).expand = kept prune w) ∧
      (nestingLimit < (kept prune w).nesting →
        (encodeValue prune w).expand = encodeValue prune w) := by
  by_cases hopen : Opened w
  · rw [encodeValue_of_opened hopen]
    constructor
    · intro hle
      rw [Value.expand_str_of_ok (Value.ofText_text (keyed_kept hkeyed) (leaves_kept hw) hle),
        Value.Plain.expand_eq (leaves_kept hplain)]
    · intro hlt
      obtain ⟨fault, hfault⟩ :=
        Value.ofText_text_of_deep (keyed_kept hkeyed) (leaves_kept hw) hlt
      exact Value.expand_str_of_error hfault
  · rw [encodeValue_of_not_opened hopen, kept_of_not_opened hopen, hplain.expand_eq]
    exact ⟨fun _ => rfl, fun _ => rfl⟩

theorem encodeValue_expand_encodeValue (hkeyed : w.Keyed) (hw : w.Integral) (hplain : w.Plain) :
    encodeValue prune (encodeValue prune w).expand = encodeValue prune w := by
  obtain ⟨hread, hdeep⟩ := @expand_encodeValue w prune hkeyed hw hplain
  rcases Nat.lt_or_ge nestingLimit (kept prune w).nesting with hlt | hle
  · rw [hdeep hlt, encodeValue_of_not_opened (not_opened_encodeValue prune w)]
  · rw [hread hle]
    by_cases hopen : Opened w
    · rw [encodeValue_of_opened (opened_kept.mpr hopen), encodeValue_of_opened hopen, kept_kept]
    · rw [kept_of_not_opened hopen]

/-- No text of the value holds a document, those at the places excepted. -/
def PlainOutside (ps : List Place) (v : Value) : Prop := (alterAll (fun _ => .null) ps v).Plain

theorem plainOutside_arr {items : List Value} (hps : [] ∉ ps) :
    PlainOutside ps (.arr items) ↔ ∀ v ∈ items, PlainOutside (under .each ps) v := by
  rw [PlainOutside, alterAll_arr hps, Value.Plain, Value.leaves_arr, List.forall_mem_map]
  rfl

theorem plainOutside_obj (hps : [] ∉ ps) (hkeys : ms.keys.Nodup) :
    PlainOutside ps (.obj ms) ↔ ∀ m ∈ ms, PlainOutside (under (.key m.1) ps) m.2 := by
  rw [PlainOutside, alterAll_obj hps _ hkeys, Value.Plain, Value.leaves_obj,
    Members.forall_mem_mapValues]
  rfl

theorem plainOutside_leaf (hps : [] ∉ ps) (hv : IsLeaf v) : PlainOutside ps v ↔ v.Plain := by
  rw [PlainOutside, alterAll_leaf hps hv]

/-- Where no other text holds a document, opening a value changes it at the places alone. -/
theorem Apart.expand_eq (h : Apart ps v) (hplain : PlainOutside ps v) :
    v.expand = alterAll Value.expand ps v := by
  induction h with
  | here v => rfl
  | leaf ps v hps hv =>
      rw [alterAll_leaf hps hv]
      exact Value.Plain.expand_eq ((plainOutside_leaf hps hv).mp hplain)
  | arr ps items hps _ ih =>
      rw [Value.expand_arr, alterAll_arr hps]
      congr 1
      exact List.map_congr_left fun v hv => ih v hv ((plainOutside_arr hps).mp hplain v hv)
  | obj ps ms hps hkeys _ ih =>
      rw [Value.expand_obj, alterAll_obj hps _ hkeys]
      congr 1
      rw [Members.mapValues_inj_left]
      exact fun m hm => ih m hm ((plainOutside_obj hps hkeys).mp hplain m hm)

theorem plainOutside_alterAll (h : Apart ps v) (hv : v.Plain) (f : Value → Value) :
    PlainOutside ps (alterAll f ps v) := by
  rw [PlainOutside, h.alterAll_alterAll]
  exact (hereditary_leaves _).alterAll (fun _ _ => trivial) hv

theorem expand_alterAll (hps : Independent ps) (hkeyed : v.Keyed) (hv : v.Plain)
    (hf : ∀ w, w.Keyed → (f w).Keyed) :
    (alterAll f ps v).expand = alterAll (Value.expand ∘ f) ps v := by
  have hplain := plainOutside_alterAll (hps.apart hkeyed) hv f
  rw [(hps.apart (hereditary_keyed.alterAll hf hkeyed)).expand_eq hplain,
    (hps.apart hkeyed).alterAll_alterAll]

theorem eq_of_alterAll_eq_str (hps : [] ∉ ps) (hkeyed : v.Keyed)
    (h : alterAll f ps v = .str text) : v = .str text := by
  cases v with
  | arr items =>
      rw [alterAll_arr hps] at h
      cases h
  | obj ms =>
      rw [alterAll_obj hps _ (Value.keyed_obj.mp hkeyed).1] at h
      cases h
  | _ =>
      refine (alterAll_leaf hps ?_ f).symm.trans h
      trivial

theorem plain_of_expand_str (h : (Value.str text).expand = .str text) : (Value.str text).Plain := by
  rw [Value.plain_str_iff]
  cases hread : Value.ofText text with
  | error fault => exact ⟨fault, rfl⟩
  | ok w => exact absurd h (Value.expand_str_ne hread text (Nat.le_refl _))

/-- A value without null members is left as it was by opening and pruning only if it is plain. -/
theorem plain_of_prune_expand (hw : w.prune = w) (h : w.expand.prune = w) : w.Plain := by
  induction w with
  | str text => exact plain_of_expand_str (Value.eq_str_of_prune h)
  | arr items ih =>
      rw [Value.prune_arr, Value.arr.injEq, map_eq_self_iff] at hw
      rw [Value.expand_arr, Value.prune_arr, List.map_map, Value.arr.injEq, map_eq_self_iff] at h
      rw [Value.Plain, Value.leaves_arr]
      exact fun v hv => ih v hv (hw v hv) (h v hv)
  | obj ms ih =>
      rw [Value.prune_obj, Value.obj.injEq] at hw
      rw [Value.expand_obj, Value.prune_obj, Value.obj.injEq] at h
      have hlength : (ms.mapValues fun _ v => v.expand).length = ms.length := List.length_map _
      have hexpand := pruneMembers_eq_mapValues
        (Nat.le_of_eq (hlength.trans (congrArg List.length h).symm))
      rw [h, Members.mapValues_mapValues] at hexpand
      rw [Value.Plain, Value.leaves_obj]
      have hms := Members.mapValues_eq_self_iff.mp hexpand.symm
      exact fun m hm => ih m hm (prune_eq_of_mem hw hm) (hms m hm)
  | _ => trivial

/-- The text of a document is stored again as it was exactly where the document, if it is opened,
    is stored as text and holds no other text of a document. -/
theorem encodeValue_expand_text_iff (hkeyed : w.Keyed) (hw : w.Integral) (hpruned : w.prune = w) :
    encodeValue true (Value.str w.text).expand = .str w.text ↔
      ∀ u, Value.ofText w.text = .ok u → Opened u ∧ u.Plain := by
  rcases Nat.lt_or_ge nestingLimit w.nesting with hlt | hle
  · obtain ⟨fault, hfault⟩ := Value.ofText_text_of_deep hkeyed hw hlt
    rw [Value.expand_str_of_error hfault, hfault]
    exact ⟨fun _ _ hread => (nomatch hread), fun _ => rfl⟩
  · have hread := Value.ofText_text hkeyed hw hle
    rw [Value.expand_str_of_ok hread, hread]
    constructor
    · intro heq u hu
      cases hu
      by_cases hopen : Opened w.expand
      · rw [encodeValue_of_opened hopen, kept_true, Value.str.injEq] at heq
        have hsame := (Value.text_inj hw).mp heq.symm
        have hplain := plain_of_prune_expand hpruned hsame.symm
        rw [hplain.expand_eq] at hopen
        exact ⟨hopen, hplain⟩
      · rw [encodeValue_of_not_opened hopen, ← Value.expand_str_of_ok hread] at heq
        exact absurd heq (Value.expand_str_ne hread w.text (Nat.le_refl _))
    · intro hopened
      obtain ⟨hopen, hplain⟩ := hopened w rfl
      rw [hplain.expand_eq, encodeValue_of_opened hopen, kept_true, hpruned]

/-- A value that opening and a change at the places leave as it was has no other text that holds
    a document. -/
theorem Apart.of_alterAll_expand (h : Apart ps v) (heq : alterAll f ps v.expand = v) :
    PlainOutside ps v ∧ HoldsAt (fun w => f w.expand = w) ps v := by
  induction h with
  | here v => exact ⟨trivial, holdsAt_here.mpr heq⟩
  | leaf ps v hps hv =>
      rw [plainOutside_leaf hps hv]
      refine ⟨?_, holdsAt_leaf hps hv⟩
      cases v with
      | arr items => exact hv.elim
      | obj ms => exact hv.elim
      | str text =>
          exact plain_of_expand_str (eq_of_alterAll_eq_str hps (Value.keyed_str text).expand heq)
      | _ => trivial
  | arr ps items hps _ ih =>
      rw [Value.expand_arr, alterAll_arr hps, List.map_map, Value.arr.injEq, map_eq_self_iff] at heq
      rw [plainOutside_arr hps, holdsAt_arr hps]
      exact ⟨fun v hv => (ih v hv (heq v hv)).1, fun v hv => (ih v hv (heq v hv)).2⟩
  | obj ps ms hps hkeys _ ih =>
      rw [Value.expand_obj, alterAll_obj hps _ (by rwa [Members.keys_mapValues]),
        Members.mapValues_mapValues, Value.obj.injEq, Members.mapValues_eq_self_iff] at heq
      rw [plainOutside_obj hps hkeys, holdsAt_obj hps hkeys]
      exact ⟨fun m hm => (ih m hm (heq m hm)).1, fun m hm => (ih m hm (heq m hm)).2⟩

/-- A stored value is stored again as it was exactly where no text outside the places holds a
    document, and the values at the places are. -/
theorem Apart.alterAll_expand_eq_iff (h : Apart ps v) :
    alterAll f ps v.expand = v ↔ PlainOutside ps v ∧ HoldsAt (fun w => f w.expand = w) ps v := by
  constructor
  · exact h.of_alterAll_expand
  · rintro ⟨hplain, hf⟩
    rw [h.expand_eq hplain, h.alterAll_alterAll]
    exact h.alterAll_eq_self hf

end Tabular.Document
