/- What is read from a text is smaller than the text, and nests no deeper than reading allows. -/
import Tabular.Document.Expand
import Tabular.Proofs.Json.Document
import Tabular.Proofs.Json.Nesting

namespace Tabular.Json
variable {α β : Type} {size : α → Nat} {measure : β → Nat} {r : Reading α} {n m : Nat}
  {acc cs rest text : List Char} {negative : Bool}

/-- What is read, if anything is, and what is left both fit `n` characters. -/
def Reading.Takes (size : α → Nat) (n : Nat) (r : Reading α) : Prop :=
  ∀ a rest, r = .ok (a, rest) → size a ≤ n ∧ rest.length ≤ n

theorem Reading.Takes.ok {a : α} (ha : size a ≤ n) (hrest : rest.length ≤ n) :
    Reading.Takes size n (.ok (a, rest)) := by
  intro a' rest' heq
  cases heq
  exact ⟨ha, hrest⟩

theorem Reading.Takes.error (stop : Stop) : Reading.Takes size n (.error stop) := by
  intro a rest heq
  cases heq

theorem Reading.Takes.mono (h : r.Takes size m) (hmn : m ≤ n) : r.Takes size n := by
  intro a rest heq
  obtain ⟨ha, hrest⟩ := h a rest heq
  exact ⟨Nat.le_trans ha hmn, Nat.le_trans hrest hmn⟩

theorem Reading.Takes.andThen {next : α → List Char → Reading β} (h : r.Takes size m)
    (hnext : ∀ a cs, size a ≤ m → cs.length ≤ m → (next a cs).Takes measure n) :
    (r.andThen next).Takes measure n := by
  cases r with
  | ok read =>
      obtain ⟨ha, hcs⟩ := h read.1 read.2 rfl
      exact hnext read.1 read.2 ha hcs
  | error stop => exact .error stop

theorem Reading.Takes.map (h : r.Takes size m) (hmn : m ≤ n) {f : α → β}
    (hf : ∀ a, size a ≤ m → measure (f a) ≤ n) : (r.map f).Takes measure n :=
  h.andThen fun a _ ha hcs => .ok (hf a ha) (Nat.le_trans hcs hmn)

theorem length_skipBlank_le (cs : List Char) : (skipBlank cs).length ≤ cs.length :=
  (List.dropWhile_suffix isBlank).length_le

theorem length_lt_of_skipBlank {c : Char} (h : skipBlank cs = c :: rest) :
    rest.length < cs.length := by
  have hle := length_skipBlank_le cs
  rw [h, List.length_cons] at hle
  omega

theorem haltHex_ne_ok (cs : List Char) (p : List Char × List Char) :
    (haltHex cs : Reading (List Char)) ≠ .ok p := by
  rw [haltHex]
  split <;> exact nofun

theorem length_readString (h : readString acc cs = .ok (text, rest)) :
    text.length + rest.length < acc.length + cs.length := by
  fun_induction readString acc cs
  case case2 =>
    cases h
    rw [List.length_reverse, List.length_cons]
    omega
  all_goals simp_all [halt, haltInside, haltHex_ne_ok]
  all_goals omega

theorem readString_takes (cs : List Char) :
    (readString [] cs).Takes List.length cs.length := by
  intro text rest heq
  have hlength := length_readString heq
  rw [List.length_nil] at hlength
  omega

theorem length_absorb_le (limit n taken : Nat) (cs : List Char) :
    (absorb limit n taken cs).2.2.length ≤ cs.length := by
  induction cs generalizing n taken with
  | nil => exact (Nat.le_refl _)
  | cons c cs ih =>
      rw [absorb]
      split
      · exact Nat.le_trans (ih _ _) (Nat.le_succ _)
      · exact (Nat.le_refl _)

theorem finishFloat_takes (negative : Bool) (n : Nat) (e : Int) (cs : List Char) :
    (finishFloat negative n e cs).Takes (fun _ => 0) cs.length := by
  rw [finishFloat]
  split
  · exact .error _
  · split
    · exact .ok (Nat.zero_le _) (Nat.le_refl _)
    · exact .error _

theorem length_of_absorb {limit k taken n' taken' : Nat}
    (h : absorb limit k taken cs = (n', taken', rest)) : rest.length ≤ cs.length := by
  have hle := length_absorb_le limit k taken cs
  rwa [h] at hle

theorem length_dropWhile_le (p : Char → Bool) (cs : List Char) :
    (cs.dropWhile p).length ≤ cs.length := (List.dropWhile_suffix p).length_le

theorem length_of_sign {down : Bool} (h : (match cs with
      | '+' :: cs => (false, cs)
      | '-' :: cs => (true, cs)
      | cs => (false, cs)) = (down, rest)) : rest.length ≤ cs.length := by
  split at h
  · cases h
    exact Nat.le_succ _
  · cases h
    exact Nat.le_succ _
  · cases h
    exact Nat.le_refl _

theorem readExponent_takes (negative : Bool) (n : Nat) (base : Int) (cs : List Char) :
    (readExponent negative n base cs).Takes (fun _ => 0) cs.length := by
  rw [readExponent.eq_def]
  split
  rename_i down ds hsign
  have hds := length_of_sign hsign
  split
  · exact .error _
  split
  · exact .error _
  split
  rename_i hdigits
  have hrest := Nat.le_trans (length_of_absorb hdigits) hds
  split
  · split
    · exact .error _
    · exact (finishFloat_takes _ _ _ _).mono (Nat.le_trans (length_dropWhile_le _ _) hrest)
  · exact (finishFloat_takes _ _ _ _).mono hrest

theorem readFraction_takes (negative : Bool) (n : Nat) (base : Int) (cs : List Char) :
    (readFraction negative n base cs).Takes (fun _ => 0) cs.length := by
  rw [readFraction.eq_def]
  split
  · exact .error _
  split
  · exact .error _
  split
  rename_i digits hdigits
  have hrest := Nat.le_trans (length_dropWhile_le Char.isDigit _) (length_of_absorb hdigits)
  split
  · rename_i heq
    rw [heq, List.length_cons] at hrest
    exact (readExponent_takes _ _ _ _).mono (Nat.le_of_succ_le hrest)
  · rename_i heq
    rw [heq, List.length_cons] at hrest
    exact (readExponent_takes _ _ _ _).mono (Nat.le_of_succ_le hrest)
  · exact (finishFloat_takes _ _ _ _).mono hrest

theorem finishInteger_takes (negative : Bool) (n : Nat) (cs : List Char) :
    (finishInteger negative n cs).Takes (fun _ => 0) cs.length := by
  rw [finishInteger]
  split
  · exact finishFloat_takes _ _ _ _
  · split
    · exact .ok (Nat.zero_le _) (Nat.le_refl _)
    · exact finishFloat_takes _ _ _ _

theorem readTail_takes (negative : Bool) (n : Nat) (cs : List Char) :
    (readTail negative n cs).Takes (fun _ => 0) cs.length := by
  have hrest := length_dropWhile_le Char.isDigit cs
  rw [readTail.eq_def]
  dsimp only
  split
  · rename_i heq
    rw [heq, List.length_cons] at hrest
    exact (readFraction_takes _ _ _ _).mono (Nat.le_of_succ_le hrest)
  · rename_i heq
    rw [heq, List.length_cons] at hrest
    exact (readExponent_takes _ _ _ _).mono (Nat.le_of_succ_le hrest)
  · rename_i heq
    rw [heq, List.length_cons] at hrest
    exact (readExponent_takes _ _ _ _).mono (Nat.le_of_succ_le hrest)
  · split
    · exact (finishInteger_takes _ _ _).mono hrest
    · exact (finishFloat_takes _ _ _ _).mono hrest

theorem readNumber_takes (negative : Bool) (cs : List Char) :
    (readNumber negative cs).Takes (fun _ => 0) cs.length := by
  rw [readNumber.eq_def]
  split
  · exact .error _
  split
  · split
    · exact .error _
    · exact (readTail_takes _ _ _).mono (Nat.le_succ _)
  · split
    · split
      rename_i hdigits
      exact (readTail_takes _ _ _).mono (length_of_absorb hdigits)
    · exact .error _

theorem Value.longestTextItems_le (items : List Value) :
    Value.longestTextItems items ≤ n ↔ ∀ v ∈ items, v.longestText ≤ n := by
  induction items with
  | nil =>
      simp only [Value.longestTextItems, Nat.zero_le, List.not_mem_nil, false_implies, implies_true]
  | cons v vs ih => simp only [Value.longestTextItems, Nat.max_le, ih, List.forall_mem_cons]

theorem Value.longestTextMembers_le (ms : Members) :
    Value.longestTextMembers ms ≤ n ↔ ∀ m ∈ ms, m.2.longestText ≤ n := by
  induction ms with
  | nil =>
      simp only [Value.longestTextMembers, Nat.zero_le, List.not_mem_nil, false_implies,
        implies_true]
  | cons m ms ih => simp only [Value.longestTextMembers, Nat.max_le, ih, List.forall_mem_cons]

theorem Members.mem_of_mem_ofPairs {pairs : Members} {m : String × Value}
    (h : m ∈ Members.ofPairs pairs) : m ∈ pairs :=
  (Members.mem_putAll h).resolve_right List.not_mem_nil

/-- The length that a text needs at least which holds a value. -/
def Value.span (v : Value) : Nat := v.longestText + 1

theorem readWord_takes {v : Value} (hv : v.span ≤ n) (word : List Char) (hcs : cs.length ≤ n) :
    (readWord v word cs).Takes Value.span n := by
  induction word generalizing cs with
  | nil => exact .ok hv hcs
  | cons w word ih =>
      cases cs with
      | nil => exact .error _
      | cons c cs =>
          rw [readWord]
          split
          · exact ih (Nat.le_of_succ_le hcs)
          · exact .error _

theorem readItems_takes {read : List Char → Reading Value}
    (h : ∀ cs, (read cs).Takes Value.span cs.length) (fuel : Nat) (cs : List Char) :
    (readItems read fuel cs).Takes Value.longestTextItems cs.length := by
  induction fuel generalizing cs with
  | zero => exact .error _
  | succ fuel ih =>
      rw [readItems]
      refine (h cs).andThen fun v ds hv hds => ?_
      have hv : v.longestText ≤ cs.length := Nat.le_of_succ_le hv
      split
      · exact .error _
      rename_i c es hskip
      have hes := Nat.le_trans (Nat.le_of_lt (length_lt_of_skipBlank hskip)) hds
      split
      · exact .ok (Nat.max_le.mpr ⟨hv, Nat.zero_le _⟩) hes
      split
      · split
        · exact .error _
        rename_i d fs hskip'
        have hfs : (d :: fs).length ≤ cs.length :=
          Nat.le_trans (length_lt_of_skipBlank hskip') hes
        split
        · exact .error _
        · exact (ih (d :: fs)).map hfs fun vs hvs => Nat.max_le.mpr ⟨hv, Nat.le_trans hvs hfs⟩
      · exact .error _

theorem readList_takes {read : List Char → Reading Value}
    (h : ∀ cs, (read cs).Takes Value.span cs.length) (fuel : Nat) (cs : List Char) :
    (readList read fuel cs).Takes Value.longestTextItems cs.length := by
  rw [readList]
  split
  · exact .error _
  rename_i c ds hskip
  have hds : (c :: ds).length ≤ cs.length := length_lt_of_skipBlank hskip
  split
  · exact .ok (Nat.zero_le _) (Nat.le_of_succ_le hds)
  · exact (readItems_takes h fuel (c :: ds)).mono hds

theorem readKey_takes (cs : List Char) : (readKey cs).Takes (fun _ => 0) cs.length := by
  rw [readKey]
  refine (readString_takes cs).andThen fun key ds _ hds => ?_
  split
  · exact .error _
  rename_i c es hskip
  have hes := Nat.le_trans (Nat.le_of_lt (length_lt_of_skipBlank hskip)) hds
  split
  · exact .ok (Nat.zero_le _) hes
  · exact .error _

theorem readMembers_takes {read : List Char → Reading Value}
    (h : ∀ cs, (read cs).Takes Value.span cs.length) (fuel : Nat) (cs : List Char) :
    (readMembers read fuel cs).Takes Value.longestTextMembers cs.length := by
  induction fuel generalizing cs with
  | zero => exact .error _
  | succ fuel ih =>
      rw [readMembers]
      refine (readKey_takes cs).andThen fun key bs _ hbs => ?_
      refine (h bs).andThen fun v ds hv hds => ?_
      have hv : v.longestText ≤ cs.length := Nat.le_of_succ_le (Nat.le_trans hv hbs)
      split
      · exact .error _
      rename_i c es hskip
      have hes := Nat.le_trans (Nat.le_of_lt (length_lt_of_skipBlank hskip)) (Nat.le_trans hds hbs)
      split
      · exact .ok (Nat.max_le.mpr ⟨hv, Nat.zero_le _⟩) hes
      split
      · split
        · exact .error _
        rename_i d fs hskip'
        have hfs := Nat.le_trans (Nat.le_of_lt (length_lt_of_skipBlank hskip')) hes
        split
        · exact (ih fs).map hfs fun ms hms => Nat.max_le.mpr ⟨hv, Nat.le_trans hms hfs⟩
        · split <;> exact .error _
      · exact .error _

theorem readObject_takes {read : List Char → Reading Value}
    (h : ∀ cs, (read cs).Takes Value.span cs.length) (fuel : Nat) (cs : List Char) :
    (readObject read fuel cs).Takes Value.longestTextMembers cs.length := by
  rw [readObject]
  split
  · exact .error _
  rename_i c ds hskip
  have hds := Nat.le_of_lt (length_lt_of_skipBlank hskip)
  split
  · refine (readMembers_takes h fuel ds).map hds fun pairs hpairs => ?_
    rw [Value.longestTextMembers_le] at hpairs ⊢
    intro m hm
    exact Nat.le_trans (hpairs m (Members.mem_of_mem_ofPairs hm)) hds
  · split
    · exact .ok (Nat.zero_le _) hds
    · exact .error _

theorem readValue_takes (fuel depth : Nat) (cs : List Char) :
    (readValue fuel depth cs).Takes Value.span cs.length := by
  induction depth using Nat.strongRecOn generalizing cs with
  | _ depth ih =>
      rw [readValue.eq_def]
      split
      · exact .error _
      rename_i c ds hskip
      have hds := length_lt_of_skipBlank hskip
      have hle := Nat.le_of_lt hds
      have hpos : 0 < cs.length := Nat.zero_lt_of_lt hds
      have hstring : ∀ text : List Char, text.length ≤ ds.length →
          Value.span (.str (String.ofList text)) ≤ cs.length := by
        intro text htext
        rw [Value.span, Value.longestText, String.length_ofList]
        omega
      -- one goal for each character that a value may start with
      repeat' split
      all_goals first
        | exact .error _
        | exact readWord_takes hpos _ hle
        | exact (readString_takes ds).map hle hstring
        | exact (readList_takes (ih _ (Nat.lt_succ_self _)) fuel _).map hle
            fun items hitems => Nat.succ_le_of_lt (Nat.lt_of_le_of_lt hitems hds)
        | exact (readObject_takes (ih _ (Nat.lt_succ_self _)) fuel _).map hle
            fun ms hms => Nat.succ_le_of_lt (Nat.lt_of_le_of_lt hms hds)
        | exact (readNumber_takes _ ds).map hle fun _ _ => hpos
        | exact (readNumber_takes _ (c :: ds)).map hds fun _ _ => hpos

/-- Texts inside a text are shorter. -/
theorem longestText_of_ofText {text : String} {v : Value} (h : Value.ofText text = .ok v) :
    v.longestText < text.length := by
  obtain ⟨rest, hread⟩ := exists_readValue_of_ofChars h
  have hspan := (readValue_takes _ _ _ v rest hread).1
  rwa [String.length_toList] at hspan

theorem nesting_le_of_ofChars {v : Value} (h : Value.ofChars cs = .ok v) :
    v.nesting ≤ nestingLimit := by
  obtain ⟨rest, hread⟩ := exists_readValue_of_ofChars h
  refine readValue_yields (S := fun n v => v.nesting ≤ n) (fun _ => Nat.zero_le _)
    (fun _ _ => Nat.zero_le _) (fun _ _ => Nat.zero_le _) (fun _ _ => Nat.zero_le _)
    (fun _ _ hitems => Value.nesting_arr_le.mpr hitems) ?_ _ _ _ v rest hread
  intro n pairs hpairs
  rw [Value.nesting_obj_le]
  exact fun m hm => hpairs m (Members.mem_of_mem_ofPairs hm)

end Tabular.Json
