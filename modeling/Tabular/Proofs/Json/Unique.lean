/- A value without floats is told from any other by its compact text. -/
import Tabular.Proofs.Json.ReadBack

namespace Tabular.Json
variable {α : Type} {f : α → List Char} {a b v : Value} {as bs : List α} {c close : Char}
  {x y : List Char} {items : List Value} {ms : Members}

/-- The kind of value that starts with a character. -/
def kindOfLead (c : Char) : String :=
  if c = 'n' then "null"
  else if c = 't' ∨ c = 'f' then "boolean"
  else if c = '"' then "string"
  else if c = '[' then "array"
  else if c = '\x7b' then "object"
  else "number"

theorem kindOfLead_digit (h : c.isDigit = true) : kindOfLead c = "number" := by
  have hne : ∀ d : Char, d.isDigit = false → c ≠ d := by
    rintro d hd rfl
    rw [h] at hd
    cases hd
  simp only [kindOfLead, hne 'n' rfl, hne 't' rfl, hne 'f' rfl, hne '"' rfl, hne '[' rfl,
    hne '\x7b' rfl, or_self, if_false]

theorem Value.kind_eq (h : v.compact = c :: x) : v.kind = kindOfLead c := by
  cases v with
  | null =>
      cases h
      rfl
  | bool b => cases b with
    | false =>
        cases h
        rfl
    | true =>
        cases h
        rfl
  | str text =>
      cases h
      rfl
  | arr items =>
      cases h
      rfl
  | obj ms =>
      cases h
      rfl
  | num n =>
      obtain ⟨d, cs, hchars, hd⟩ := n.chars_eq_cons
      rw [Value.compact, hchars] at h
      cases h
      rcases hd with rfl | hd
      · rfl
      · exact (kindOfLead_digit hd).symm

theorem Value.compact_eq_cons (v : Value) : ∃ c cs, v.compact = c :: cs ∧ opensValue c = true := by
  rw [Value.compact_eq 0]
  exact v.spaced_eq_cons .none 0

theorem Value.kind_eq_of_compact (h : a.compact ++ x = b.compact ++ y) : a.kind = b.kind := by
  obtain ⟨c, cs, ha, _⟩ := a.compact_eq_cons
  obtain ⟨d, ds, hb, _⟩ := b.compact_eq_cons
  rw [ha, hb] at h
  obtain ⟨rfl, _⟩ := List.cons_eq_cons.mp h
  rw [Value.kind_eq ha, Value.kind_eq hb]

/-- The written form of `a` tells it, and the text behind it, from any other. -/
def Told (f : α → List Char) (a : α) : Prop :=
  ∀ b x y, EndsNumber x → EndsNumber y → f a ++ x = f b ++ y → a = b ∧ x = y

/-- Parts behind commas, up to the closing bracket. -/
def partsTail (f : α → List Char) (close : Char) (rest : List Char) : List α → List Char
  | [] => close :: rest
  | a :: as => ',' :: (f a ++ partsTail f close rest as)

theorem endsNumber_partsTail (hclose : close = ']' ∨ close = '\x7d') (x : List Char) (as : List α) :
    EndsNumber (partsTail f close x as) := by
  cases as with
  | nil => exact endsNumber_mark (.inr hclose) x
  | cons a as => exact endsNumber_mark (.inl rfl) _

theorem partsTail_inj (hclose : close = ']' ∨ close = '\x7d') (has : ∀ a ∈ as, Told f a)
    (h : partsTail f close x as = partsTail f close y bs) : as = bs ∧ x = y := by
  have hcomma : close ≠ ',' := by rcases hclose with rfl | rfl <;> decide
  induction as generalizing bs with
  | nil => cases bs with
    | nil => exact ⟨rfl, (List.cons_eq_cons.mp h).2⟩
    | cons b bs => exact absurd (List.cons_eq_cons.mp h).1 hcomma
  | cons a as ih => cases bs with
    | nil => exact absurd (List.cons_eq_cons.mp h).1.symm hcomma
    | cons b bs =>
        obtain ⟨ha, has⟩ := List.forall_mem_cons.mp has
        obtain ⟨rfl, hrest⟩ := ha b _ _ (endsNumber_partsTail hclose x as)
          (endsNumber_partsTail hclose y bs) (List.cons_eq_cons.mp h).2
        obtain ⟨rfl, rfl⟩ := ih has hrest
        exact ⟨rfl, rfl⟩

def memberText (m : String × Value) : List Char := quoted m.1 ++ ':' :: m.2.compact

theorem compactItems_append (v : Value) (vs : List Value) (x : List Char) :
    Value.compactItems (v :: vs) ++ ']' :: x = v.compact ++ partsTail Value.compact ']' x vs := by
  induction vs generalizing v with
  | nil => rfl
  | cons w vs ih => rw [Value.compactItems, List.append_assoc, List.cons_append, ih, partsTail]

theorem compactMembers_append (m : String × Value) (ms : Members) (x : List Char) :
    Value.compactMembers (m :: ms) ++ '\x7d' :: x =
      memberText m ++ partsTail memberText '\x7d' x ms := by
  induction ms generalizing m with
  | nil => rfl
  | cons n ms ih =>
      rw [partsTail, ← ih n, memberText, Value.compactMembers]
      simp only [List.append_assoc, List.cons_append]

theorem quoted_inj {s t : String} (h : quoted s ++ x = quoted t ++ y) : s = t ∧ x = y := by
  rw [quoted_eq, quoted_eq, List.cons_append, List.cons_append] at h
  have hread := readString_quotedTail s x
  rw [(List.cons_eq_cons.mp h).2, readString_quotedTail] at hread
  obtain ⟨htext, hrest⟩ := Prod.mk.inj (Except.ok.inj hread)
  exact ⟨(String.toList_inj.mp htext).symm, hrest.symm⟩

theorem told_memberText {m : String × Value} (h : Told Value.compact m.2) : Told memberText m := by
  intro n x y hx hy heq
  obtain ⟨key, v⟩ := m
  obtain ⟨key', w⟩ := n
  rw [memberText, memberText, List.append_assoc, List.append_assoc] at heq
  obtain ⟨rfl, htail⟩ := quoted_inj heq
  obtain ⟨rfl, rfl⟩ := h w x y hx hy (List.cons_eq_cons.mp htail).2
  exact ⟨rfl, rfl⟩

theorem compact_ne_close (hclose : opensValue close = false) : close :: x ≠ v.compact ++ y := by
  obtain ⟨c, cs, hcons, hc⟩ := v.compact_eq_cons
  rw [hcons]
  intro heq
  exact not_opensValue hc hclose (List.cons_eq_cons.mp heq).1.symm

theorem told_arr (h : ∀ v ∈ items, Told Value.compact v) {items' : List Value}
    (heq : (Value.arr items).compact ++ x = (Value.arr items').compact ++ y) :
    items = items' ∧ x = y := by
  simp only [Value.compact, List.cons_append, List.append_assoc, List.nil_append] at heq
  have htail := (List.cons_eq_cons.mp heq).2
  cases items with
  | nil => cases items' with
    | nil => exact ⟨rfl, (List.cons_eq_cons.mp htail).2⟩
    | cons w ws =>
        rw [compactItems_append] at htail
        exact absurd htail (compact_ne_close (by decide))
  | cons v vs => cases items' with
    | nil =>
        rw [compactItems_append] at htail
        exact absurd htail.symm (compact_ne_close (by decide))
    | cons w ws =>
        -- The first elements are compared as if a comma stood in front of them.
        rw [compactItems_append, compactItems_append] at htail
        exact partsTail_inj (.inl rfl) h (congrArg (List.cons ',') htail)

theorem told_obj (h : ∀ m ∈ ms, Told Value.compact m.2) {ms' : Members}
    (heq : (Value.obj ms).compact ++ x = (Value.obj ms').compact ++ y) : ms = ms' ∧ x = y := by
  simp only [Value.compact, List.cons_append, List.append_assoc, List.nil_append] at heq
  have htail := (List.cons_eq_cons.mp heq).2
  cases ms with
  | nil => cases ms' with
    | nil => exact ⟨rfl, (List.cons_eq_cons.mp htail).2⟩
    | cons n ns =>
        rw [compactMembers_append] at htail
        exact absurd (List.cons_eq_cons.mp htail).1 (by decide)
  | cons m ms => cases ms' with
    | nil =>
        rw [compactMembers_append] at htail
        exact absurd (List.cons_eq_cons.mp htail).1 (by decide)
    | cons n ns =>
        rw [compactMembers_append, compactMembers_append] at htail
        exact partsTail_inj (.inr rfl) (fun m hm => told_memberText (h m hm))
          (congrArg (List.cons ',') htail)

theorem told_compact (ha : a.Integral) : Told Value.compact a := by
  induction a with
  | null =>
      intro b x y _ _ heq
      cases b with
      | null => exact ⟨rfl, List.append_cancel_left heq⟩
      | _ => exact absurd (Value.kind_eq_of_compact heq) (by simp [Value.kind])
  | bool p =>
      intro b x y _ _ heq
      cases b with
      | bool q =>
          cases p <;> cases q <;> cases heq <;> exact ⟨rfl, rfl⟩
      | _ => exact absurd (Value.kind_eq_of_compact heq) (by simp [Value.kind])
  | num n =>
      intro b x y hx hy heq
      cases n with
      | float f hf => exact ha.elim
      | int i hi =>
          cases b with
          | num m =>
              obtain ⟨rfl, rfl⟩ := Number.chars_inj i hi hx hy heq
              exact ⟨rfl, rfl⟩
          | _ => exact absurd (Value.kind_eq_of_compact heq) (by simp [Value.kind])
  | str text =>
      intro b x y _ _ heq
      cases b with
      | str other =>
          obtain ⟨rfl, rfl⟩ := quoted_inj heq
          exact ⟨rfl, rfl⟩
      | _ => exact absurd (Value.kind_eq_of_compact heq) (by simp [Value.kind])
  | arr items ih =>
      intro b x y _ _ heq
      cases b with
      | arr items' =>
          obtain ⟨rfl, rfl⟩ := told_arr (fun v hv => ih v hv (Value.leaves_arr.mp ha v hv)) heq
          exact ⟨rfl, rfl⟩
      | _ => exact absurd (Value.kind_eq_of_compact heq) (by simp [Value.kind])
  | obj ms ih =>
      intro b x y _ _ heq
      cases b with
      | obj ms' =>
          obtain ⟨rfl, rfl⟩ := told_obj (fun m hm => ih m hm (Value.leaves_obj.mp ha m hm)) heq
          exact ⟨rfl, rfl⟩
      | _ => exact absurd (Value.kind_eq_of_compact heq) (by simp [Value.kind])

/-- Two values have one text only where they are the same value. -/
theorem Value.text_inj (ha : a.Integral) : a.text = b.text ↔ a = b := by
  constructor
  · intro h
    have hchars : a.compact ++ [] = b.compact ++ [] := by
      rw [List.append_nil, List.append_nil]
      exact String.ofList_injective h
    exact (told_compact ha b [] [] trivial trivial hchars).1
  · rintro rfl
    rfl

end Tabular.Json
