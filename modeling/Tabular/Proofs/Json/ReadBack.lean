/- What has been written is read back, unless it nests too deep. -/
import Tabular.Proofs.Decimal.Notation
import Tabular.Proofs.Json.Document
import Tabular.Proofs.Json.Spacing
import Tabular.Proofs.Json.Token

namespace Tabular.Json
variable {α β : Type} {a : α} {b : β} {p q : Prop} {r : Reading α} {cs ds rest tail : List Char}
  {c : Char} {s : Spacing} {level fuel depth : Nat} {v : Value}
  {items : List Value} {ms pairs : Members}

/-- Where the condition holds, something is read; elsewhere the text nests too deep. -/
def Reading.Gives (p : Prop) (a : α) (rest : List Char) (r : Reading α) : Prop :=
  (p → r = .ok (a, rest)) ∧ (¬ p → ∃ left, r = .error ⟨.tooDeep, left⟩)

theorem Reading.Gives.ok (hp : p) (a : α) (rest : List Char) :
    Reading.Gives p a rest (.ok (a, rest)) :=
  ⟨fun _ => rfl, fun hnot => absurd hp hnot⟩

theorem Reading.Gives.tooDeep (hp : ¬ p) (a : α) (rest : List Char) (left : Nat) :
    Reading.Gives p a rest (.error ⟨.tooDeep, left⟩) :=
  ⟨fun h => absurd h hp, fun _ => ⟨left, rfl⟩⟩

theorem Reading.Gives.congr (h : r.Gives p a rest) (hpq : p ↔ q) : r.Gives q a rest :=
  ⟨fun hq => h.1 (hpq.mpr hq), fun hq => h.2 fun hp => hq (hpq.mp hp)⟩

theorem Reading.Gives.andThen {next : α → List Char → Reading β} (h : r.Gives p a cs)
    (hnext : (next a cs).Gives q b rest) : (r.andThen next).Gives (p ∧ q) b rest := by
  constructor
  · rintro ⟨hp, hq⟩
    rw [h.1 hp]
    exact hnext.1 hq
  · intro hnot
    by_cases hp : p
    · rw [h.1 hp]
      exact hnext.2 fun hq => hnot ⟨hp, hq⟩
    · obtain ⟨left, hleft⟩ := h.2 hp
      rw [hleft]
      exact ⟨left, rfl⟩

theorem Reading.Gives.thenOk {next : α → List Char → Reading β} (h : r.Gives p a cs)
    (hnext : next a cs = .ok (b, rest)) : (r.andThen next).Gives p b rest := by
  have hok : (next a cs).Gives True b rest := hnext ▸ .ok trivial b rest
  exact (h.andThen hok).congr (iff_of_eq (and_true p))

theorem Reading.Gives.map (h : r.Gives p a rest) (f : α → β) : (r.map f).Gives p (f a) rest :=
  h.thenOk rfl

theorem skipBlank_append (h : ∀ c ∈ tail, isBlank c = true) (cs : List Char) :
    skipBlank (tail ++ cs) = skipBlank cs := List.dropWhile_append_of_pos h

theorem skipBlank_cons (h : isBlank c = false) (cs : List Char) :
    skipBlank (c :: cs) = c :: cs := by
  rw [skipBlank, List.dropWhile_cons, h]
  rfl

/-- The characters that a value may start with. -/
def opensValue (c : Char) : Bool :=
  c.isDigit || ['n', 't', 'f', '"', '[', '\x7b', '-'].contains c

theorem not_opensValue (h : opensValue c = true) {d : Char} (hd : opensValue d = false) :
    c ≠ d := by
  rintro rfl
  rw [h] at hd
  cases hd

theorem isBlank_of_opensValue (h : opensValue c = true) : isBlank c = false := by
  simp only [isBlank, Bool.or_eq_false_iff, beq_eq_false_iff_ne]
  exact ⟨⟨⟨not_opensValue h (by decide), not_opensValue h (by decide)⟩,
    not_opensValue h (by decide)⟩, not_opensValue h (by decide)⟩

theorem Value.spaced_eq_cons (v : Value) (s : Spacing) (level : Nat) :
    ∃ c cs, v.spaced s level = c :: cs ∧ opensValue c = true := by
  cases v with
  | null => exact ⟨'n', _, rfl, by decide⟩
  | bool b => cases b with
    | true => exact ⟨'t', _, rfl, by decide⟩
    | false => exact ⟨'f', _, rfl, by decide⟩
  | str text => exact ⟨'"', _, rfl, by decide⟩
  | arr items => cases items with
    | nil => exact ⟨'[', _, rfl, by decide⟩
    | cons v vs => exact ⟨'[', _, rfl, by decide⟩
  | obj ms => cases ms with
    | nil => exact ⟨'\x7b', _, rfl, by decide⟩
    | cons m ms => exact ⟨'\x7b', _, rfl, by decide⟩
  | num n =>
      obtain ⟨c, cs, hchars, hc⟩ := n.chars_eq_cons
      refine ⟨c, cs, hchars, ?_⟩
      rcases hc with rfl | hc
      · decide
      · rw [opensValue, hc, Bool.true_or]

theorem endsNumber_append (htail : ∀ c ∈ tail, isBlank c = true) (hcs : EndsNumber cs) :
    EndsNumber (tail ++ cs) := by
  cases tail with
  | nil => exact hcs
  | cons c tail =>
      have hc := (List.forall_mem_cons.mp htail).1
      simp only [isBlank, Bool.or_eq_true, beq_iff_eq] at hc
      rcases hc with ((rfl | rfl) | rfl) | rfl <;>
        exact ⟨by decide, by decide, by decide, by decide⟩

theorem endsNumber_mark (h : c = ',' ∨ c = ']' ∨ c = '\x7d') (cs : List Char) :
    EndsNumber (c :: cs) := by
  rcases h with rfl | rfl | rfl <;> exact ⟨by decide, by decide, by decide, by decide⟩

theorem skipBlank_gap (hc : opensValue c = true) (s : Spacing) (level : Nat) (cs : List Char) :
    skipBlank (s.gap level ++ c :: cs) = c :: cs := by
  rw [skipBlank_append (s.gap_blank level), skipBlank_cons (isBlank_of_opensValue hc)]

theorem spacedItems_eq_cons (v : Value) (s : Spacing) (level : Nat) (vs : List Value) :
    ∃ c cs, Value.spacedItems s level (v :: vs) = c :: cs ∧ opensValue c = true := by
  obtain ⟨c, cs, hcons, hc⟩ := v.spaced_eq_cons s level
  cases vs with
  | nil => exact ⟨c, cs, hcons, hc⟩
  | cons w vs =>
      rw [Value.spacedItems, hcons]
      exact ⟨c, _, rfl, hc⟩

theorem readItems_last {read : List Char → Reading Value}
    (hread : (read cs).Gives p v (tail ++ ']' :: rest)) (htail : ∀ c ∈ tail, isBlank c = true) :
    (readItems read (fuel + 1) cs).Gives p [v] rest := by
  rw [readItems]
  refine hread.thenOk ?_
  rw [skipBlank_append htail, skipBlank_cons (by decide)]
  rfl

theorem readItems_cons {read : List Char → Reading Value} {vs : List Value}
    (hread : (read cs).Gives p v (',' :: ds))
    (hskip : skipBlank ds = c :: tail) (hc : opensValue c = true)
    (hrest : (readItems read fuel (c :: tail)).Gives q vs rest) :
    (readItems read (fuel + 1) cs).Gives (p ∧ q) (v :: vs) rest := by
  rw [readItems]
  refine hread.andThen ?_
  rw [skipBlank_cons (by decide)]
  simp only [hskip, if_neg (not_opensValue hc (show opensValue ']' = false by decide)),
    if_neg (show ',' ≠ ']' by decide), if_true]
  exact hrest.map (v :: ·)

theorem readItems_spaced {read : List Char → Reading Value}
    (hread : ∀ v ∈ items, ∀ rest, EndsNumber rest →
      (read (v.spaced s level ++ rest)).Gives (v.nesting ≤ depth) v rest)
    (hne : items ≠ []) (hfuel : items.length ≤ fuel) (htail : ∀ c ∈ tail, isBlank c = true)
    (rest : List Char) :
    (readItems read fuel (Value.spacedItems s level items ++ (tail ++ ']' :: rest))).Gives
      (∀ v ∈ items, v.nesting ≤ depth) items rest := by
  induction items generalizing fuel with
  | nil => exact absurd rfl hne
  | cons v vs ih =>
      obtain ⟨hv, hvs⟩ := List.forall_mem_cons.mp hread
      obtain ⟨fuel, rfl⟩ := Nat.exists_eq_add_one_of_ne_zero (show fuel ≠ 0 by
        rw [List.length_cons] at hfuel
        omega)
      cases vs with
      | nil =>
          have hend := endsNumber_append htail (endsNumber_mark (.inr (.inl rfl)) rest)
          rw [List.forall_mem_singleton]
          exact readItems_last (hv _ hend) htail
      | cons w vs =>
          have hrest := ih hvs (List.cons_ne_nil w vs) (Nat.le_of_succ_le_succ hfuel)
          obtain ⟨c, cs, hcons, hc⟩ := spacedItems_eq_cons w s level vs
          rw [hcons, List.cons_append] at hrest
          rw [Value.spacedItems, List.append_assoc, List.cons_append, List.append_assoc, hcons,
            List.cons_append, List.forall_mem_cons]
          exact readItems_cons (hv _ (endsNumber_mark (.inl rfl) _)) (skipBlank_gap hc s level _) hc
            hrest

theorem readList_spaced {read : List Char → Reading Value}
    (hread : ∀ v ∈ items, ∀ rest, EndsNumber rest →
      (read (v.spaced s (level + 1) ++ rest)).Gives (v.nesting ≤ depth) v rest)
    (hne : items ≠ []) (hfuel : items.length ≤ fuel) (rest : List Char) :
    (readList read fuel (s.gap (level + 1) ++ (Value.spacedItems s (level + 1) items ++
      (s.gap level ++ ']' :: rest)))).Gives (∀ v ∈ items, v.nesting ≤ depth) items rest := by
  have hspaced := readItems_spaced hread hne hfuel (s.gap_blank level) rest
  cases items with
  | nil => exact absurd rfl hne
  | cons v vs =>
      obtain ⟨c, cs, hcons, hc⟩ := spacedItems_eq_cons v s (level + 1) vs
      rw [hcons, List.cons_append] at hspaced ⊢
      rw [readList, skipBlank_gap hc]
      simp only [if_neg (not_opensValue hc (show opensValue ']' = false by decide))]
      exact hspaced

/-- A string, behind its opening quote. -/
def quotedTail (text : String) : List Char := text.toList.flatMap escaped ++ ['"']

theorem quoted_eq (text : String) : quoted text = '"' :: quotedTail text := rfl

theorem readString_quotedTail (text : String) (rest : List Char) :
    readString [] (quotedTail text ++ rest) = .ok (text.toList, rest) := by
  rw [quotedTail, List.append_assoc, List.singleton_append, readString_quoted]
  rfl

theorem readKey_quotedTail (key : String) (cs : List Char) :
    readKey (quotedTail key ++ ':' :: cs) = .ok (key, cs) := by
  rw [readKey, readString_quotedTail, Reading.andThen]
  simp only [skipBlank_cons (show isBlank ':' = false by decide), if_true, String.ofList_toList]

/-- Members, behind the quote of the first key. -/
def Value.membersTail (s : Spacing) (level : Nat) (ms : Members) : List Char :=
  (Value.spacedMembers s level ms).tail

theorem spacedMembers_eq (s : Spacing) (level : Nat) (key : String) (v : Value) (ms : Members) :
    Value.spacedMembers s level ((key, v) :: ms) =
      '"' :: Value.membersTail s level ((key, v) :: ms) := by
  cases ms with
  | nil => rfl
  | cons m ms => rfl

theorem readMembers_last {read : List Char → Reading Value} {key : String}
    (hread : (read cs).Gives p v (tail ++ '\x7d' :: rest)) (htail : ∀ c ∈ tail, isBlank c = true) :
    (readMembers read (fuel + 1) (quotedTail key ++ ':' :: cs)).Gives p [(key, v)] rest := by
  rw [readMembers, readKey_quotedTail]
  refine hread.thenOk ?_
  rw [skipBlank_append htail, skipBlank_cons (by decide)]
  rfl

theorem readMembers_cons {read : List Char → Reading Value} {key : String}
    (hread : (read cs).Gives p v (',' :: ds)) (hskip : skipBlank ds = '"' :: tail)
    (hrest : (readMembers read fuel tail).Gives q ms rest) :
    (readMembers read (fuel + 1) (quotedTail key ++ ':' :: cs)).Gives (p ∧ q) ((key, v) :: ms)
      rest := by
  rw [readMembers, readKey_quotedTail]
  refine hread.andThen ?_
  rw [skipBlank_cons (by decide)]
  simp only [hskip, if_neg (show ',' ≠ '\x7d' by decide), if_true]
  exact hrest.map ((key, v) :: ·)

theorem readMembers_spaced {read : List Char → Reading Value}
    (hread : ∀ m ∈ ms, ∀ rest, EndsNumber rest →
      (read (s.colon ++ (m.2.spaced s level ++ rest))).Gives (m.2.nesting ≤ depth) m.2 rest)
    (hne : ms ≠ []) (hfuel : ms.length ≤ fuel) (htail : ∀ c ∈ tail, isBlank c = true)
    (rest : List Char) :
    (readMembers read fuel (Value.membersTail s level ms ++ (tail ++ '\x7d' :: rest))).Gives
      (∀ m ∈ ms, m.2.nesting ≤ depth) ms rest := by
  induction ms generalizing fuel with
  | nil => exact absurd rfl hne
  | cons m ms ih =>
      obtain ⟨key, v⟩ := m
      obtain ⟨hv, hms⟩ := List.forall_mem_cons.mp hread
      obtain ⟨fuel, rfl⟩ := Nat.exists_eq_add_one_of_ne_zero (show fuel ≠ 0 by
        rw [List.length_cons] at hfuel
        omega)
      cases ms with
      | nil =>
          have hend := endsNumber_append htail (endsNumber_mark (.inr (.inr rfl)) rest)
          have htext : Value.membersTail s level [(key, v)] =
              quotedTail key ++ ':' :: (s.colon ++ v.spaced s level) := rfl
          rw [List.forall_mem_singleton, htext, List.append_assoc, List.cons_append,
            List.append_assoc]
          exact readMembers_last (hv _ hend) htail
      | cons m ms =>
          have hrest := ih hms (List.cons_ne_nil m ms) (Nat.le_of_succ_le_succ hfuel)
          have htext : Value.membersTail s level ((key, v) :: m :: ms) =
              quotedTail key ++ ':' :: (s.colon ++ (v.spaced s level ++
                ',' :: (s.gap level ++ '"' :: Value.membersTail s level (m :: ms)))) := by
            rw [← spacedMembers_eq]
            rfl
          rw [List.forall_mem_cons, htext]
          simp only [List.append_assoc, List.cons_append]
          refine readMembers_cons (hv _ (endsNumber_mark (.inl rfl) _)) ?_ hrest
          rw [skipBlank_append (s.gap_blank level), skipBlank_cons (by decide)]

/-- Where no key repeats, pairs are members as they stand. -/
theorem putAll_append (hkeys : (ms ++ pairs).keys.Nodup) : ms.putAll pairs = ms ++ pairs := by
  induction pairs generalizing ms with
  | nil => exact (List.append_nil ms).symm
  | cons m pairs ih =>
      obtain ⟨key, v⟩ := m
      have hkey : key ∉ ms.keys := by
        intro hmem
        rw [Members.keys, List.map_append] at hkeys
        exact (List.nodup_append.mp hkeys).2.2 key hmem key List.mem_cons_self rfl
      rw [List.append_cons] at hkeys
      rw [Members.putAll_cons, Members.put_of_missing (get?_eq_none_of_notMem hkey), ih hkeys,
        ← List.append_cons]

theorem ofPairs_of_nodup (hkeys : ms.keys.Nodup) : Members.ofPairs ms = ms := by
  have happend : Members.putAll [] ms = [] ++ ms := putAll_append hkeys
  rw [Members.ofPairs_eq, happend, List.nil_append]

theorem readObject_spaced {read : List Char → Reading Value} (hkeys : ms.keys.Nodup)
    (hread : ∀ m ∈ ms, ∀ rest, EndsNumber rest →
      (read (s.colon ++ (m.2.spaced s (level + 1) ++ rest))).Gives (m.2.nesting ≤ depth) m.2 rest)
    (hne : ms ≠ []) (hfuel : ms.length ≤ fuel) (rest : List Char) :
    (readObject read fuel (s.gap (level + 1) ++ (Value.spacedMembers s (level + 1) ms ++
      (s.gap level ++ '\x7d' :: rest)))).Gives (∀ m ∈ ms, m.2.nesting ≤ depth) ms rest := by
  have hspaced := (readMembers_spaced hread hne hfuel (s.gap_blank level) rest).map Members.ofPairs
  rw [ofPairs_of_nodup hkeys] at hspaced
  cases ms with
  | nil => exact absurd rfl hne
  | cons m ms =>
      rw [spacedMembers_eq, readObject, skipBlank_append (s.gap_blank _), List.cons_append,
        skipBlank_cons (by decide)]
      simp only [if_true]
      exact hspaced

theorem readValue_blank (htail : ∀ c ∈ tail, isBlank c = true) (fuel depth : Nat)
    (cs : List Char) : readValue fuel depth (tail ++ cs) = readValue fuel depth cs := by
  rw [readValue.eq_def, readValue.eq_def fuel depth cs, skipBlank_append htail]

theorem readValue_string (fuel depth : Nat) (cs : List Char) :
    readValue fuel depth ('"' :: cs) =
      (readString [] cs).map fun text => .str (String.ofList text) := by
  rw [readValue.eq_def]
  rfl

theorem readValue_list (fuel depth : Nat) (cs : List Char) :
    readValue fuel (depth + 1) ('[' :: cs) =
      (readList (readValue fuel depth) fuel cs).map .arr := by
  rw [readValue.eq_def]
  rfl

theorem readValue_object (fuel depth : Nat) (cs : List Char) :
    readValue fuel (depth + 1) ('\x7b' :: cs) =
      (readObject (readValue fuel depth) fuel cs).map .obj := by
  rw [readValue.eq_def]
  rfl

theorem readValue_tooDeep (h : c = '[' ∨ c = '\x7b') (fuel : Nat) (cs : List Char) :
    readValue fuel 0 (c :: cs) = .error ⟨.tooDeep, byteCount (c :: cs) - 1⟩ := by
  rw [readValue.eq_def]
  rcases h with rfl | rfl <;> rfl

theorem length_spaced_pos (v : Value) (s : Spacing) (level : Nat) :
    1 ≤ (v.spaced s level).length := by
  obtain ⟨c, cs, hcons, _⟩ := v.spaced_eq_cons s level
  rw [hcons, List.length_cons]
  exact Nat.le_add_left 1 _

/-- A list has no more elements than its text has characters, nor a longer element. -/
theorem length_le_spacedItems (s : Spacing) (level : Nat) (items : List Value) :
    items.length ≤ (Value.spacedItems s level items).length ∧
      ∀ v ∈ items, (v.spaced s level).length ≤ (Value.spacedItems s level items).length := by
  induction items with
  | nil => exact ⟨Nat.le_refl 0, fun _ hmem => absurd hmem List.not_mem_nil⟩
  | cons v vs ih =>
      obtain ⟨hlength, hspaced⟩ := ih
      have hpos := length_spaced_pos v s level
      cases vs with
      | nil => exact ⟨hpos, List.forall_mem_singleton.mpr (Nat.le_refl _)⟩
      | cons w vs =>
          rw [Value.spacedItems]
          simp only [List.length_append, List.length_cons] at hlength ⊢
          refine ⟨by omega, List.forall_mem_cons.mpr ⟨by omega, ?_⟩⟩
          intro u hu
          have hle := hspaced u hu
          omega

theorem length_le_spacedMembers (s : Spacing) (level : Nat) (ms : Members) :
    ms.length ≤ (Value.spacedMembers s level ms).length ∧
      ∀ m ∈ ms, (m.2.spaced s level).length ≤ (Value.spacedMembers s level ms).length := by
  induction ms with
  | nil => exact ⟨Nat.le_refl 0, fun _ hmem => absurd hmem List.not_mem_nil⟩
  | cons m ms ih =>
      obtain ⟨key, v⟩ := m
      obtain ⟨hlength, hspaced⟩ := ih
      cases ms with
      | nil =>
          rw [Value.spacedMembers, List.forall_mem_singleton]
          simp only [List.length_append, List.length_cons, List.length_nil]
          omega
      | cons m ms =>
          rw [Value.spacedMembers]
          simp only [List.length_append, List.length_cons] at hlength ⊢
          refine ⟨by omega, List.forall_mem_cons.mpr ⟨by dsimp only; omega, ?_⟩⟩
          intro m' hm'
          have hle := hspaced m' hm'
          omega

theorem spaced_arr_eq_cons (s : Spacing) (level : Nat) (items : List Value) :
    ∃ cs, (Value.arr items).spaced s level = '[' :: cs := by
  cases items with
  | nil => exact ⟨_, rfl⟩
  | cons v vs => exact ⟨_, rfl⟩

theorem spaced_obj_eq_cons (s : Spacing) (level : Nat) (ms : Members) :
    ∃ cs, (Value.obj ms).spaced s level = '\x7b' :: cs := by
  cases ms with
  | nil => exact ⟨_, rfl⟩
  | cons m ms => exact ⟨_, rfl⟩

theorem readValue_arr
    (hread : ∀ v ∈ items, ∀ rest, (v.spaced s (level + 1)).length ≤ fuel → EndsNumber rest →
      (readValue fuel depth (v.spaced s (level + 1) ++ rest)).Gives (v.nesting ≤ depth) v rest)
    (hfuel : ((Value.arr items).spaced s level).length ≤ fuel) (rest : List Char) :
    (readValue fuel (depth + 1) ((Value.arr items).spaced s level ++ rest)).Gives
      (∀ v ∈ items, v.nesting ≤ depth) (.arr items) rest := by
  cases items with
  | nil =>
      rw [Value.spaced, List.cons_append, readValue_list, readList.eq_def]
      exact .ok (fun _ hmem => absurd hmem List.not_mem_nil) _ _
  | cons v vs =>
      obtain ⟨hlength, hspaced⟩ := length_le_spacedItems s (level + 1) (v :: vs)
      simp only [Value.spaced, List.length_cons, List.length_append] at hfuel
      rw [Value.spaced, List.cons_append, readValue_list]
      simp only [List.append_assoc, List.singleton_append]
      refine (readList_spaced ?_ (List.cons_ne_nil v vs) ?_ rest).map Value.arr
      · intro w hw rest hrest
        have hle := hspaced w hw
        exact hread w hw rest (by omega) hrest
      · simp only [List.length_cons] at hlength ⊢
        omega

theorem readValue_obj (hkeys : ms.keys.Nodup)
    (hread : ∀ m ∈ ms, ∀ rest, (m.2.spaced s (level + 1)).length ≤ fuel → EndsNumber rest →
      (readValue fuel depth (m.2.spaced s (level + 1) ++ rest)).Gives (m.2.nesting ≤ depth) m.2 rest)
    (hfuel : ((Value.obj ms).spaced s level).length ≤ fuel) (rest : List Char) :
    (readValue fuel (depth + 1) ((Value.obj ms).spaced s level ++ rest)).Gives
      (∀ m ∈ ms, m.2.nesting ≤ depth) (.obj ms) rest := by
  cases ms with
  | nil =>
      rw [Value.spaced, List.cons_append, readValue_object, readObject.eq_def]
      exact .ok (fun _ hmem => absurd hmem List.not_mem_nil) _ _
  | cons m ms =>
      obtain ⟨hlength, hspaced⟩ := length_le_spacedMembers s (level + 1) (m :: ms)
      simp only [Value.spaced, List.length_cons, List.length_append] at hfuel
      rw [Value.spaced, List.cons_append, readValue_object]
      simp only [List.append_assoc, List.singleton_append]
      refine (readObject_spaced hkeys ?_ (List.cons_ne_nil m ms) ?_ rest).map Value.obj
      · intro m' hm' rest hrest
        have hle := hspaced m' hm'
        rw [readValue_blank s.colon_blank]
        exact hread m' hm' rest (by omega) hrest
      · simp only [List.length_cons] at hlength ⊢
        omega

/-- A written value is read with its members in their order, wherever it stands. -/
theorem readValue_spaced (hkeyed : v.Keyed) (hv : v.Integral)
    (hfuel : (v.spaced s level).length ≤ fuel) (hrest : EndsNumber rest) :
    (readValue fuel depth (v.spaced s level ++ rest)).Gives (v.nesting ≤ depth) v rest := by
  induction v generalizing level depth rest with
  | null =>
      rw [readValue.eq_def]
      exact .ok (Nat.zero_le depth) _ _
  | bool b =>
      rw [readValue.eq_def]
      cases b with
      | true => exact .ok (Nat.zero_le depth) _ _
      | false => exact .ok (Nat.zero_le depth) _ _
  | num n =>
      cases n with
      | float x h => exact hv.elim
      | int i h =>
          change Reading.Gives _ _ _ (readValue fuel depth ((Number.int i h).chars ++ rest))
          rw [readValue_int i h hrest]
          exact .ok (Nat.zero_le depth) _ _
  | str text =>
      change Reading.Gives _ _ _ (readValue fuel depth (quoted text ++ rest))
      rw [quoted_eq, List.cons_append, readValue_string, readString_quotedTail, Reading.map,
        Reading.andThen, String.ofList_toList]
      exact .ok (Nat.zero_le depth) _ _
  | arr items ih =>
      cases depth with
      | zero =>
          obtain ⟨cs, hcons⟩ := spaced_arr_eq_cons s level items
          rw [hcons, List.cons_append, readValue_tooDeep (.inl rfl)]
          exact .tooDeep (Nat.not_succ_le_zero _) _ _ _
      | succ depth =>
          rw [Value.nesting_arr_le]
          refine readValue_arr ?_ hfuel rest
          intro w hw rest hle hrest
          exact ih w hw (Value.keyed_arr.mp hkeyed w hw) (Value.leaves_arr.mp hv w hw) hle hrest
  | obj ms ih =>
      obtain ⟨hkeys, hms⟩ := Value.keyed_obj.mp hkeyed
      cases depth with
      | zero =>
          obtain ⟨cs, hcons⟩ := spaced_obj_eq_cons s level ms
          rw [hcons, List.cons_append, readValue_tooDeep (.inr rfl)]
          exact .tooDeep (Nat.not_succ_le_zero _) _ _ _
      | succ depth =>
          rw [Value.nesting_obj_le]
          refine readValue_obj hkeys ?_ hfuel rest
          intro m hm rest hle hrest
          exact ih m hm (hms m hm) (Value.leaves_obj.mp hv m hm) hle hrest

/-- A written value is read back as a whole text exactly when it does not nest too deep. -/
theorem Value.ofChars_spaced (hkeyed : v.Keyed) (hv : v.Integral) (s : Spacing) (level : Nat) :
    (v.nesting ≤ nestingLimit → Value.ofChars (v.spaced s level) = .ok v) ∧
      (nestingLimit < v.nesting →
        ∃ fault, Value.ofChars (v.spaced s level) = .error fault ∧ fault.cause = .tooDeep) := by
  have hread : (readValue (v.spaced s level).length nestingLimit (v.spaced s level ++ [])).Gives
      (v.nesting ≤ nestingLimit) v [] := readValue_spaced hkeyed hv (Nat.le_refl _) trivial
  rw [List.append_nil] at hread
  obtain ⟨hok, hdeep⟩ := hread
  rw [Value.ofChars]
  constructor
  · intro hle
    rw [hok hle]
    rfl
  · intro hlt
    obtain ⟨left, hleft⟩ := hdeep (Nat.not_le_of_lt hlt)
    rw [hleft]
    exact ⟨_, rfl, rfl⟩

theorem Value.ofText_text (hkeyed : v.Keyed) (hv : v.Integral) (hle : v.nesting ≤ nestingLimit) :
    Value.ofText v.text = .ok v := by
  rw [Value.ofText, Value.text, String.toList_ofList, Value.compact_eq 0]
  exact (Value.ofChars_spaced hkeyed hv .none 0).1 hle

theorem Value.ofText_text_of_deep (hkeyed : v.Keyed) (hv : v.Integral)
    (hlt : nestingLimit < v.nesting) : ∃ fault, Value.ofText v.text = .error fault := by
  rw [Value.ofText, Value.text, String.toList_ofList, Value.compact_eq 0]
  obtain ⟨fault, hfault, _⟩ := (Value.ofChars_spaced hkeyed hv .none 0).2 hlt
  exact ⟨fault, hfault⟩

end Tabular.Json
