/- The first element of a list with a property: what finds it, and what changing it does. -/
import Tabular.Proofs.Model.Outcome

namespace Tabular.Model
variable {α β : Type} {as as' : List α} {a a' b b' : α} {p : α → Bool} {fault absent : Fault}
  {edit : α → Outcome α} {i j : Nat}

/-- The first element with a property. -/
def found (as : List α) (p : α → Bool) (absent : Fault) : Except Fault α :=
  match as.find? p with
  | some a => .ok a
  | none => .error absent

/-- The first element with a property, and its place. -/
def FirstAt (p : α → Bool) (as : List α) (i : Nat) (a : α) : Prop :=
  as.findIdx? p = some i ∧ as[i]? = some a

theorem FirstAt.test (h : FirstAt p as i a) : p a = true := by
  obtain ⟨hi, htest, _⟩ := List.findIdx?_eq_some_iff_getElem.mp h.1
  obtain ⟨_, hget⟩ := List.getElem?_eq_some_iff.mp h.2
  rwa [hget] at htest

theorem FirstAt.mem (h : FirstAt p as i a) : a ∈ as := List.mem_of_getElem? h.2

theorem FirstAt.append (h : FirstAt p as i a) (bs : List α) : FirstAt p (as ++ bs) i a := by
  refine ⟨by rw [List.findIdx?_append, h.1, Option.some_or], ?_⟩
  rw [List.getElem?_append_left (List.getElem?_eq_some_iff.mp h.2).1, h.2]

theorem firstAt_or_forall (p : α → Bool) (as : List α) :
    (∃ i a, FirstAt p as i a) ∨ ∀ a ∈ as, p a = false := by
  cases h : as.findIdx? p with
  | none => exact .inr (List.findIdx?_eq_none_iff.mp h)
  | some i =>
      obtain ⟨hi, _⟩ := List.findIdx?_eq_some_iff_getElem.mp h
      exact .inl ⟨i, as[i], h, List.getElem?_eq_getElem hi⟩

/-- What looks the same in an element and in the one that takes its place looks the same in the
    whole list. -/
theorem map_set_of_getElem? {f : α → β} (hget : as[i]? = some a) (h : f a' = f a) :
    (as.set i a').map f = as.map f := by
  obtain ⟨hi, rfl⟩ := List.getElem?_eq_some_iff.mp hget
  rw [List.map_set, h, ← List.getElem_map f (h := by rwa [List.length_map]), List.set_getElem_self]

theorem findIdx?_set (hget : as[i]? = some a) (h : p a' = p a) :
    (as.set i a').findIdx? p = as.findIdx? p := by
  have hmap (as : List α) : as.findIdx? p = (as.map p).findIdx? id := by
    rw [List.findIdx?_map, Function.id_comp]
  rw [hmap, map_set_of_getElem? hget h, ← hmap]

theorem FirstAt.set (h : FirstAt p as i a) (hp : p a' = p a) : FirstAt p (as.set i a') i a' := by
  have hi := (List.getElem?_eq_some_iff.mp h.2).1
  exact ⟨(findIdx?_set h.2 hp).trans h.1, List.getElem?_set_self hi⟩

theorem FirstAt.set_of_ne (h : FirstAt p as i a) (hget : as[j]? = some b) (hb : p b' = p b)
    (hij : j ≠ i) : FirstAt p (as.set j b') i a :=
  ⟨(findIdx?_set hget hb).trans h.1, (List.getElem?_set_ne hij).trans h.2⟩

/-- When an element changes that may be the first with a property or not, the first one is still at
    its place. -/
theorem FirstAt.exists_set {R : α → α → Prop} (h : FirstAt p as i a) (hget : as[j]? = some b)
    (hb : p b' = p b) (hR : R b b') (hrefl : R a a) :
    ∃ a', FirstAt p (as.set j b') i a' ∧ R a a' := by
  by_cases hij : j = i
  · subst hij
    cases h.2.symm.trans hget
    exact ⟨b', h.set hb, hR⟩
  · exact ⟨a, h.set_of_ne hget hb hij, hrefl⟩

theorem found_eq_ok : found as p fault = .ok a ↔ ∃ i, FirstAt p as i a := by
  have hfind : as.find? p = some a ↔ ∃ i, FirstAt p as i a := by
    rw [List.find?_eq_bind_findIdx?_getElem?, Option.bind_eq_some_iff]
    rfl
  rw [← hfind, found]
  cases as.find? p <;> simp

theorem found_eq_error : found as p absent = .error fault ↔
    (∀ a ∈ as, ¬ p a = true) ∧ absent = fault := by
  rw [found, ← List.find?_eq_none]
  cases as.find? p <;> simp

theorem exists_found : (∃ a, found as p fault = .ok a) ↔ as.any p := by
  rw [← List.isSome_find?, Option.isSome_iff_exists]
  simp only [found]
  cases as.find? p <;> simp

theorem found_append (h : as.any p = false) (ha : p a) : found (as ++ [a]) p fault = .ok a := by
  have hnone : as.find? p = none := by
    rw [List.find?_eq_none]
    exact fun b hb hp => Bool.false_ne_true (h ▸ List.any_eq_true.mpr ⟨b, hb, hp⟩)
  rw [found, List.find?_append, hnone, Option.none_or, List.find?_cons_of_pos ha]

theorem found_append_of_not (ha : p a = false) :
    found (as ++ [a]) p fault = found as p fault := by
  rw [found, List.find?_append, List.find?_cons_of_neg (by rw [ha]; exact Bool.false_ne_true),
    List.find?_nil, Option.or_none, found]

theorem found_set (hget : as[i]? = some a) (ha : p a = false) (ha' : p a' = false) :
    found (as.set i a') p fault = found as p fault := by
  obtain ⟨hi, rfl⟩ := List.getElem?_eq_some_iff.mp hget
  obtain ⟨before, after, has, _, hset⟩ := @List.exists_of_set α i a' as hi
  rw [hset]
  conv_rhs => rw [has]
  simp only [found, List.find?_append, List.find?_cons, ha, ha']

theorem editFirst_of_firstAt (h : FirstAt p as i a) (absent : Fault) (edit : α → Outcome α) :
    editFirst p absent edit as = inPart (fun a' => as.set i a') (edit a) := by
  obtain ⟨hfirst, hget⟩ := h
  induction as generalizing i with
  | nil => cases hget
  | cons b as ih =>
      rw [List.findIdx?_cons] at hfirst
      rw [editFirst]
      split
      · rename_i hb
        rw [if_pos hb] at hfirst
        cases hfirst
        cases hget
        rfl
      · rename_i hb
        rw [if_neg hb, Option.map_eq_some_iff] at hfirst
        obtain ⟨i, hfirst, rfl⟩ := hfirst
        rw [ih hfirst hget]
        cases edit a <;> rfl

theorem editFirst_of_forall (h : ∀ a ∈ as, p a = false) (absent : Fault) (edit : α → Outcome α) :
    editFirst p absent edit as = .error ⟨absent, as⟩ := by
  induction as with
  | nil => rfl
  | cons a as ih =>
      obtain ⟨ha, has⟩ := List.forall_mem_cons.mp h
      rw [editFirst, ha, if_neg Bool.false_ne_true, ih has]
      rfl

/-- A change of the first element with a property puts another in its place. -/
theorem exists_firstAt_of_editFirst (h : editFirst p absent edit as = .ok as') :
    ∃ i a a', FirstAt p as i a ∧ edit a = .ok a' ∧ as' = as.set i a' := by
  rcases firstAt_or_forall p as with ⟨i, a, hfirst⟩ | hnone
  · rw [editFirst_of_firstAt hfirst, inPart_eq_ok] at h
    obtain ⟨a', ha', rfl⟩ := h
    exact ⟨i, a, a', hfirst, ha', rfl⟩
  · rw [editFirst_of_forall hnone] at h
    cases h

theorem editFirst_forall {P : α → Prop} (hedit : ∀ a a', P a → edit a = .ok a' → P a')
    (h : ∀ a ∈ as, P a) (heq : editFirst p absent edit as = .ok as') : ∀ a ∈ as', P a := by
  obtain ⟨i, a, a', hfirst, ha', rfl⟩ := exists_firstAt_of_editFirst heq
  intro b hb
  rcases List.mem_or_eq_of_mem_set hb with hold | rfl
  · exact h b hold
  · exact hedit a b (h a hfirst.mem) ha'

theorem map_editFirst {f : α → β} (hedit : ∀ a a', edit a = .ok a' → f a' = f a)
    (heq : editFirst p absent edit as = .ok as') : as'.map f = as.map f := by
  obtain ⟨i, a, a', hfirst, ha', rfl⟩ := exists_firstAt_of_editFirst heq
  exact map_set_of_getElem? hfirst.2 (hedit a a' ha')

/-- What is told about a change of the first element with a property, and what this property finds
    afterwards, depends on this element only. -/
theorem map_found_editFirst (hedit : ∀ a a', edit a = .ok a' → p a' = p a) (as : List α)
    (absent : Fault) : (told (editFirst p absent edit as)).map (fun as => found as p fault) =
      (found as p absent >>= fun a => told (edit a)).map Except.ok := by
  rcases firstAt_or_forall p as with ⟨i, a, hfirst⟩ | hnone
  · rw [editFirst_of_firstAt hfirst, found_eq_ok.mpr ⟨i, hfirst⟩]
    cases heq : edit a with
    | error failure =>
        change Except.error failure.fault = (told (edit a)).map Except.ok
        rw [heq]
        rfl
    | ok a' =>
        have hfound : found (as.set i a') p fault = .ok a' :=
          found_eq_ok.mpr ⟨i, hfirst.set (hedit a a' heq)⟩
        change Except.ok (found (as.set i a') p fault) = (told (edit a)).map Except.ok
        rw [hfound, heq]
        rfl
  · have hfound : found as p absent = .error absent :=
      found_eq_error.mpr ⟨fun a ha => Bool.eq_false_iff.mp (hnone a ha), rfl⟩
    rw [editFirst_of_forall hnone, hfound]
    rfl

end Tabular.Model
