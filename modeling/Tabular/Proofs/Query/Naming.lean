/- How the steps of a query get their names, and that no two of them get the same. -/
import Mathlib.Algebra.GroupWithZero.Nat
import Mathlib.Data.List.DropRight
import Mathlib.Data.List.Nodup
import Mathlib.Data.List.Perm.Subperm
import Mathlib.Order.Bounds.Defs
import Tabular.Query.Step

namespace Tabular.Query
variable {numbering : Numbering} {base other : String} {bases taken : List String}
  {namer : Namer} {m n s : Nat}

/-- The suffixes that a numbering uses. -/
def Numbering.Admits : Numbering → Nat → Prop
  | .sequential, s => 1 ≤ s
  | .legacy, s => 1 ≤ s ∧ s ≠ 2

theorem Numbering.admits_iff : numbering.Admits s ↔ ∃ n, 1 ≤ n ∧ numbering.suffix n = s := by
  cases numbering with
  | sequential => exact ⟨fun h => ⟨s, h, rfl⟩, fun ⟨n, hn, h⟩ => h ▸ hn⟩
  | legacy =>
      constructor
      · rintro ⟨hs, htwo⟩
        by_cases hone : s = 1
        · exact ⟨1, le_rfl, hone.symm⟩
        · exact ⟨s - 1, by omega, by rw [Numbering.suffix, if_neg (by omega)]; omega⟩
      · rintro ⟨n, hn, rfl⟩
        simp only [Numbering.suffix, Numbering.Admits]
        split <;> omega

theorem Numbering.suffix_lt_iff (hm : 1 ≤ m) (hn : 1 ≤ n) :
    numbering.suffix m < numbering.suffix n ↔ m < n := by
  cases numbering with
  | sequential => exact Iff.rfl
  | legacy =>
      simp only [Numbering.suffix]
      split <;> split <;> omega

theorem Numbering.suffix_le_succ (numbering : Numbering) (n : Nat) :
    numbering.suffix n ≤ n + 1 := by
  cases numbering with
  | sequential => exact Nat.le_succ n
  | legacy =>
      simp only [Numbering.suffix]
      split <;> omega

theorem Numbering.label_eq (numbering : Numbering) (base : String) (n : Nat) :
    numbering.label base n = base ++ toString (numbering.suffix n) := rfl

theorem toDigits_inj (h : Nat.toDigits 10 m = Nat.toDigits 10 n) : m = n := by
  rw [← @Nat.ofDigitChars_ten_toDigits m, h, Nat.ofDigitChars_ten_toDigits]

theorem Numbering.label_inj (hm : 1 ≤ m) (hn : 1 ≤ n)
    (h : numbering.label base m = numbering.label base n) : m = n := by
  have hdigits : Nat.toDigits 10 (numbering.suffix m) = Nat.toDigits 10 (numbering.suffix n) := by
    simpa [Numbering.label, String.ext_iff] using h
  have hsuffix := toDigits_inj hdigits
  rcases Nat.lt_trichotomy m n with hlt | heq | hgt
  · exact absurd hsuffix ((suffix_lt_iff hm hn).mpr hlt).ne
  · exact heq
  · exact absurd hsuffix.symm ((suffix_lt_iff hn hm).mpr hgt).ne

/-- Of the names of one base, as many in a row are taken at most as names are taken at all. -/
theorem Numbering.le_length_of_taken (hn : 1 ≤ n)
    (h : ∀ k, n ≤ k → k < n + m → numbering.label base k ∈ taken) : m ≤ taken.length := by
  have hnodup : ((List.range' n m).map (numbering.label base)).Nodup := by
    refine List.Nodup.map_on ?_ List.nodup_range'
    intro k hk l hl heq
    rw [List.mem_range'_1] at hk hl
    exact Numbering.label_inj (by omega) (by omega) heq
  have hsubset : (List.range' n m).map (numbering.label base) ⊆ taken := by
    intro name hname
    obtain ⟨k, hk, rfl⟩ := List.mem_map.mp hname
    rw [List.mem_range'_1] at hk
    exact h k hk.1 hk.2
  simpa using (List.subperm_of_subset hnodup hsubset).length_le

theorem Numbering.le_firstFree (numbering : Numbering) (base : String) (taken : List String)
    (tries n : Nat) : n ≤ numbering.firstFree base taken tries n := by
  induction tries generalizing n with
  | zero => exact le_rfl
  | succ tries ih =>
      rw [Numbering.firstFree]
      split
      · exact (Nat.le_succ n).trans (ih (n + 1))
      · exact le_rfl

theorem Numbering.taken_of_lt_firstFree {tries k : Nat} (hn : n ≤ k)
    (hk : k < numbering.firstFree base taken tries n) : numbering.label base k ∈ taken := by
  induction tries generalizing n with
  | zero =>
      rw [Numbering.firstFree] at hk
      omega
  | succ tries ih =>
      rw [Numbering.firstFree] at hk
      split at hk
      · rename_i htaken
        rcases Nat.eq_or_lt_of_le hn with rfl | hlt
        · exact List.contains_iff_mem.mp htaken
        · exact ih hlt hk
      · omega

/-- The search ends at a free name or when its tries are used up. -/
theorem Numbering.firstFree_free (numbering : Numbering) (base : String) (taken : List String)
    (tries n : Nat) : numbering.label base (numbering.firstFree base taken tries n) ∉ taken ∨
      numbering.firstFree base taken tries n = n + tries := by
  induction tries generalizing n with
  | zero => exact Or.inr rfl
  | succ tries ih =>
      rw [Numbering.firstFree]
      split
      · rcases ih (n + 1) with hfree | heq
        · exact Or.inl hfree
        · exact Or.inr (by rw [heq]; omega)
      · rename_i hfree
        exact Or.inl (mt List.contains_iff_mem.mpr hfree)

/-- With a try for each name that is taken, the search ends at a free name. -/
theorem Numbering.label_firstFree_notMem (hn : 1 ≤ n) :
    numbering.label base (numbering.firstFree base taken taken.length n) ∉ taken := by
  intro hmem
  rcases numbering.firstFree_free base taken taken.length n with hfree | heq
  · exact hfree hmem
  · -- Otherwise one name more would be taken than there are taken names.
    have hall : ∀ k, n ≤ k → k < n + (taken.length + 1) → numbering.label base k ∈ taken := by
      intro k hk hlt
      rcases Nat.eq_or_lt_of_le (Nat.le_of_lt_succ hlt) with rfl | hlt
      · rwa [heq] at hmem
      · exact Numbering.taken_of_lt_firstFree hk (hlt.trans_eq heq.symm)
    have hle := Numbering.le_length_of_taken hn hall
    omega

/-- The state after names for some bases. -/
def Namer.after (namer : Namer) (numbering : Numbering) : List String → Namer
  | [] => namer
  | base :: bases => (namer.assign numbering base).2.after numbering bases

/-- The count that the next name of a base has. -/
def Namer.next (namer : Namer) (numbering : Numbering) (base : String) : Nat :=
  numbering.firstFree base namer.taken namer.taken.length (namer.count base + 1)

namespace Namer

theorem taken_assign (namer : Namer) (numbering : Numbering) (base : String) :
    (namer.assign numbering base).2.taken = (namer.assign numbering base).1 :: namer.taken := rfl

theorem count_assign (namer : Namer) (numbering : Numbering) (base other : String) :
    (namer.assign numbering base).2.count other =
      if other = base then namer.next numbering base else namer.count other := by
  simp only [Namer.count, Namer.assign, List.lookup_cons]
  by_cases h : other = base
  · simp only [h, beq_self_eq_true, if_true, Option.getD_some, Namer.next, Namer.count]
  · simp only [beq_eq_false_iff_ne.mpr h, if_neg h]

theorem count_lt_next (namer : Namer) (numbering : Numbering) (base : String) :
    namer.count base < namer.next numbering base :=
  numbering.le_firstFree base namer.taken namer.taken.length (namer.count base + 1)

theorem label_next_notMem (namer : Namer) (numbering : Numbering) (base : String) :
    numbering.label base (namer.next numbering base) ∉ namer.taken :=
  Numbering.label_firstFree_notMem (Nat.le_add_left 1 _)

theorem taken_of_lt_next {k : Nat} (h : namer.count base < k)
    (hk : k < namer.next numbering base) : numbering.label base k ∈ namer.taken :=
  Numbering.taken_of_lt_firstFree h hk

theorem after_append (namer : Namer) (numbering : Numbering) (bases more : List String) :
    namer.after numbering (bases ++ more) = (namer.after numbering bases).after numbering more := by
  induction bases generalizing namer with
  | nil => rfl
  | cons base bases ih => exact ih _

theorem assignAll_append (namer : Namer) (numbering : Numbering) (bases more : List String) :
    namer.assignAll numbering (bases ++ more) = namer.assignAll numbering bases ++
      (namer.after numbering bases).assignAll numbering more := by
  induction bases generalizing namer with
  | nil => rfl
  | cons base bases ih =>
      simp only [List.cons_append, Namer.assignAll, Namer.after, ih]

theorem taken_after (namer : Namer) (numbering : Numbering) (bases : List String) :
    (namer.after numbering bases).taken =
      (namer.assignAll numbering bases).reverse ++ namer.taken := by
  induction bases generalizing namer with
  | nil => rfl
  | cons base bases ih =>
      rw [Namer.after, ih, taken_assign, Namer.assignAll, List.reverse_cons, List.append_assoc]
      rfl

/-- What names keep true of the state: they differ, and each count up to the one that a base has
    come to stands for a name that is taken. -/
structure Fits (numbering : Numbering) (namer : Namer) : Prop where
  nodup : namer.taken.Nodup
  counted : ∀ base n, 1 ≤ n → n ≤ namer.count base → numbering.label base n ∈ namer.taken

theorem fits_empty (numbering : Numbering) : Namer.empty.Fits numbering where
  nodup := List.nodup_nil
  counted := by
    intro base n hn hle
    exact absurd (hn.trans hle) (Nat.not_succ_le_zero 0)

theorem Fits.assign (h : namer.Fits numbering) (base : String) :
    (namer.assign numbering base).2.Fits numbering where
  nodup := by
    rw [taken_assign, List.nodup_cons]
    exact ⟨namer.label_next_notMem numbering base, h.nodup⟩
  counted := by
    intro other n hn hle
    rw [taken_assign, List.mem_cons]
    rw [count_assign] at hle
    split at hle
    · rename_i heq
      subst heq
      -- Up to its old count a base has its names; above it, the search has passed taken ones.
      rcases Nat.eq_or_lt_of_le hle with rfl | hlt
      · exact Or.inl rfl
      · rcases Nat.lt_or_ge (namer.count other) n with hgt | hle
        · exact Or.inr (taken_of_lt_next hgt hlt)
        · exact Or.inr (h.counted other n hn hle)
    · exact Or.inr (h.counted other n hn hle)

theorem Fits.after (h : namer.Fits numbering) (bases : List String) :
    (namer.after numbering bases).Fits numbering := by
  induction bases generalizing namer with
  | nil => exact h
  | cons base bases ih => exact ih (h.assign base)

/-- No counter has come further than there are names. -/
theorem Fits.count_le (h : namer.Fits numbering) (base : String) :
    namer.count base ≤ namer.taken.length := by
  have htaken : ∀ n, 1 ≤ n → n < 1 + namer.count base →
      numbering.label base n ∈ namer.taken :=
    fun n hn hlt => h.counted base n hn (by omega)
  exact Numbering.le_length_of_taken le_rfl htaken

theorem count_le_after (namer : Namer) (numbering : Numbering) (bases : List String)
    (base : String) : namer.count base ≤ (namer.after numbering bases).count base := by
  induction bases generalizing namer with
  | nil => exact le_rfl
  | cons other bases ih =>
      refine le_trans ?_ (ih (namer.assign numbering other).2)
      rw [count_assign]
      split
      · rename_i heq
        exact heq ▸ (namer.count_lt_next numbering base).le
      · exact le_rfl

end Namer

/-- How far the counter of a base has come when the first `j` of some bases have their names. -/
def Numbering.counter (numbering : Numbering) (bases : List String) (j : Nat) (base : String) :
    Nat :=
  (Namer.empty.after numbering (bases.take j)).count base

namespace Numbering

theorem names_append (numbering : Numbering) (bases more : List String) :
    numbering.names (bases ++ more) = numbering.names bases ++
      (Namer.empty.after numbering bases).assignAll numbering more :=
  Namer.assignAll_append Namer.empty numbering bases more

theorem length_names (numbering : Numbering) (bases : List String) :
    (numbering.names bases).length = bases.length := by
  rw [Numbering.names]
  generalize Namer.empty = namer
  induction bases generalizing namer with
  | nil => rfl
  | cons base bases ih => simp only [Namer.assignAll, List.length_cons, ih]

theorem taken_after_empty (numbering : Numbering) (bases : List String) :
    (Namer.empty.after numbering bases).taken = (numbering.names bases).reverse := by
  rw [Namer.taken_after, Numbering.names]
  exact List.append_nil _

theorem nodup_names (numbering : Numbering) (bases : List String) :
    (numbering.names bases).Nodup := by
  rw [← List.nodup_reverse, ← taken_after_empty]
  exact ((Namer.fits_empty numbering).after bases).nodup

theorem names_take (numbering : Numbering) (bases : List String) (j : Nat) :
    numbering.names (bases.take j) = (numbering.names bases).take j := by
  conv_rhs => rw [← List.take_append_drop j bases, names_append]
  rcases Nat.le_total j bases.length with hle | hge
  · rw [List.take_left' (by rw [length_names, List.length_take, min_eq_left hle])]
  · rw [List.take_of_length_le hge, List.drop_of_length_le hge, Namer.assignAll, List.append_nil,
      List.take_of_length_le (by rwa [length_names])]

theorem counter_le (numbering : Numbering) (bases : List String) (j : Nat) (base : String) :
    numbering.counter bases j base ≤ j := by
  calc numbering.counter bases j base
      ≤ (Namer.empty.after numbering (bases.take j)).taken.length :=
        ((Namer.fits_empty numbering).after _).count_le base
    _ ≤ j := by
        rw [taken_after_empty, List.length_reverse, length_names, List.length_take]
        exact min_le_left _ _

theorem take_succ_of_getElem? {j : Nat} (h : bases[j]? = some base) :
    bases.take (j + 1) = bases.take j ++ [base] := by
  rw [List.take_add_one, h, Option.toList_some]

theorem counter_succ {j : Nat} (h : bases[j]? = some base) (other : String) :
    numbering.counter bases (j + 1) other = if other = base then
      (Namer.empty.after numbering (bases.take j)).next numbering base
      else numbering.counter bases j other := by
  rw [Numbering.counter, take_succ_of_getElem? h, Namer.after_append]
  exact Namer.count_assign _ numbering base other

theorem counter_mono {i j : Nat} (h : i ≤ j) (base : String) :
    numbering.counter bases i base ≤ numbering.counter bases j base := by
  have htake : bases.take j = bases.take i ++ (bases.take j).drop i := by
    conv_lhs => rw [← List.take_append_drop i (bases.take j), List.take_take, min_eq_left h]
  rw [Numbering.counter, Numbering.counter, htake, Namer.after_append]
  exact Namer.count_le_after _ numbering _ base

/-- The name of a step is its base with the count that the counter of the base has come to. -/
theorem getElem?_names {j : Nat} (h : bases[j]? = some base) :
    (numbering.names bases)[j]? =
      some (numbering.label base (numbering.counter bases (j + 1) base)) := by
  have hj : j < bases.length := (List.getElem?_eq_some_iff.mp h).1
  have hlast : (numbering.names (bases.take (j + 1)))[j]? =
      some (numbering.label base (numbering.counter bases (j + 1) base)) := by
    rw [counter_succ h, if_pos rfl, take_succ_of_getElem? h, names_append,
      List.getElem?_append_right (by rw [length_names, List.length_take]; omega), length_names,
      List.length_take, min_eq_left hj.le, Nat.sub_self]
    rfl
  rw [names_take, List.getElem?_take_of_lt (Nat.lt_succ_self j)] at hlast
  exact hlast

theorem exists_of_mem_take {j : Nat} {name : String} (h : name ∈ (numbering.names bases).take j) :
    ∃ i < j, ∃ base, bases[i]? = some base ∧
      name = numbering.label base (numbering.counter bases (i + 1) base) := by
  obtain ⟨i, hi, hname⟩ := List.mem_iff_getElem.mp h
  rw [List.length_take, length_names] at hi
  obtain ⟨hj, hi⟩ := Nat.lt_min.mp hi
  have hbase := List.getElem?_eq_getElem hi
  rw [List.getElem_take, List.getElem_eq_iff, getElem?_names hbase, Option.some.injEq] at hname
  exact ⟨i, hj, _, hbase, hname.symm⟩

theorem counter_lt {j : Nat} (h : bases[j]? = some base) :
    numbering.counter bases j base < numbering.counter bases (j + 1) base := by
  rw [counter_succ h, if_pos rfl]
  exact Namer.count_lt_next _ numbering base

/-- A counter stands where the last name of its base has put it. -/
theorem exists_of_counter_pos {j : Nat} (h : 1 ≤ numbering.counter bases j base) :
    ∃ i < j, bases[i]? = some base ∧
      numbering.counter bases (i + 1) base = numbering.counter bases j base := by
  induction j with
  | zero => exact absurd h (Nat.not_succ_le_zero 0)
  | succ j ih =>
      cases hj : bases[j]? with
      | none =>
          have hsame : numbering.counter bases (j + 1) base = numbering.counter bases j base := by
            rw [Numbering.counter, List.take_add_one, hj, Option.toList_none, List.append_nil,
              Numbering.counter]
          rw [hsame] at h ⊢
          obtain ⟨i, hi, hbase, heq⟩ := ih h
          exact ⟨i, hi.trans (Nat.lt_succ_self j), hbase, heq⟩
      | some other =>
          by_cases hother : base = other
          · exact ⟨j, Nat.lt_succ_self j, by rw [hj, hother], rfl⟩
          · have hsame : numbering.counter bases (j + 1) base = numbering.counter bases j base := by
              rw [counter_succ hj, if_neg hother]
            rw [hsame] at h ⊢
            obtain ⟨i, hi, hbase, heq⟩ := ih h
            exact ⟨i, hi.trans (Nat.lt_succ_self j), hbase, heq⟩

/-- The suffixes that a step with this base may get after the first `j` steps: those above all
    suffixes that the base has got, with which it makes a name that no step has. -/
def Open (numbering : Numbering) (bases : List String) (j : Nat) (base : String) : Set Nat :=
  {s | numbering.Admits s ∧
    (∀ i < j, bases[i]? = some base →
      numbering.suffix (numbering.counter bases (i + 1) base) < s) ∧
    base ++ toString s ∉ (numbering.names bases).take j}

theorem isLeast_open {j : Nat} (h : bases[j]? = some base) :
    IsLeast (numbering.Open bases j base)
      (numbering.suffix (numbering.counter bases (j + 1) base)) := by
  have hpos : 1 ≤ numbering.counter bases (j + 1) base := (Nat.zero_le _).trans_lt (counter_lt h)
  have hnext : numbering.counter bases (j + 1) base =
      (Namer.empty.after numbering (bases.take j)).next numbering base := by
    rw [counter_succ h, if_pos rfl]
  have hmem : ∀ name, name ∈ (numbering.names bases).take j ↔
      name ∈ (Namer.empty.after numbering (bases.take j)).taken := by
    intro name
    rw [taken_after_empty, List.mem_reverse, names_take]
  refine ⟨⟨admits_iff.mpr ⟨_, hpos, rfl⟩, ?_, ?_⟩, ?_⟩
  · intro i hi hbase
    rw [suffix_lt_iff ((Nat.zero_le _).trans_lt (counter_lt hbase)) hpos]
    exact (counter_mono hi base).trans_lt (counter_lt h)
  · rw [← label_eq, hmem, hnext]
    exact Namer.label_next_notMem _ numbering base
  · rintro s ⟨hadmits, habove, hfree⟩
    obtain ⟨k, hk, rfl⟩ := admits_iff.mp hadmits
    rw [← label_eq, hmem] at hfree
    -- A smaller count would be above the counter, and its name is taken.
    by_contra hlt
    rw [not_le, suffix_lt_iff hk hpos] at hlt
    refine hfree (Namer.taken_of_lt_next ?_ (hnext ▸ hlt))
    rcases Nat.eq_zero_or_pos (numbering.counter bases j base) with hzero | hcount
    · exact (show numbering.counter bases j base < k by omega)
    · obtain ⟨i, hi, hbase, heq⟩ := exists_of_counter_pos hcount
      have hgiven := habove i hi hbase
      rw [heq, suffix_lt_iff hcount hk] at hgiven
      exact hgiven

/-- A base that does not end in a digit. -/
def Plain (base : String) : Prop := ∀ c ∈ base.toList.getLast?, c.isDigit = false

theorem rdropWhile_plain {digits : List Char} (h : Plain base) (hd : ∀ c ∈ digits, c.isDigit) :
    (base.toList ++ digits).rdropWhile Char.isDigit = base.toList := by
  have hbase : base.toList.rdropWhile Char.isDigit = base.toList := by
    rw [List.rdropWhile_eq_self_iff]
    intro hne hlast
    rw [h _ (List.getLast?_eq_some_getLast hne)] at hlast
    cases hlast
  have hdigits : ∀ c ∈ digits.reverse, c.isDigit := fun c hc => hd c (List.mem_reverse.mp hc)
  rw [List.rdropWhile, List.reverse_append, List.dropWhile_append_of_pos hdigits,
    ← List.rdropWhile, hbase]

/-- A name tells its base, when bases do not end in digits. -/
theorem base_eq_of_label_eq (h : Plain base) (h' : Plain other)
    (heq : numbering.label base m = numbering.label other n) : base = other := by
  have hdigits : ∀ n, ∀ c ∈ Nat.toDigits 10 n, c.isDigit :=
    fun _ _ hc => Nat.isDigit_of_mem_toDigits (by decide) (by decide) hc
  have hlists : base.toList ++ Nat.toDigits 10 (numbering.suffix m) =
      other.toList ++ Nat.toDigits 10 (numbering.suffix n) := by
    simpa [Numbering.label, String.ext_iff] using heq
  have hdrop := congrArg (List.rdropWhile Char.isDigit) hlists
  rw [rdropWhile_plain h (hdigits _), rdropWhile_plain h' (hdigits _)] at hdrop
  exact String.toList_inj.mp hdrop

/-- Without digits at the ends of bases, no other base has taken the next name of a base. -/
theorem counter_succ_of_plain {j : Nat} (h : ∀ b ∈ bases, Plain b) (hj : bases[j]? = some base) :
    numbering.counter bases (j + 1) base = numbering.counter bases j base + 1 := by
  apply Nat.le_antisymm _ (counter_lt hj)
  by_contra hlt
  rw [counter_succ hj, if_pos rfl, not_le] at hlt
  have hmem := Namer.taken_of_lt_next (Nat.lt_succ_self _) hlt
  rw [taken_after_empty, List.mem_reverse, names_take] at hmem
  obtain ⟨i, hi, other, hother, hname⟩ := exists_of_mem_take hmem
  obtain rfl := base_eq_of_label_eq (h _ (List.mem_of_getElem? hj))
    (h _ (List.mem_of_getElem? hother)) hname
  have hcount : numbering.counter bases j base + 1 = numbering.counter bases (i + 1) base :=
    label_inj (Nat.le_add_left 1 _) ((Nat.zero_le _).trans_lt (counter_lt hother)) hname
  have hmono : numbering.counter bases (i + 1) base ≤ numbering.counter bases j base :=
    counter_mono hi base
  omega

/-- Without digits at the ends of bases, counters count. -/
theorem counter_eq_count (h : ∀ b ∈ bases, Plain b) (j : Nat) (base : String) :
    numbering.counter bases j base = (bases.take j).count base := by
  induction j generalizing base with
  | zero => rfl
  | succ j ih =>
      cases hj : bases[j]? with
      | none =>
          rw [Numbering.counter, List.take_add_one, hj, Option.toList_none, List.append_nil]
          exact ih base
      | some other =>
          rw [take_succ_of_getElem? hj, List.count_append, ← ih base]
          by_cases heq : base = other
          · subst heq
            rw [counter_succ_of_plain h hj, List.count_singleton_self]
          · rw [counter_succ hj, if_neg heq, List.count_singleton,
              beq_eq_false_iff_ne.mpr (Ne.symm heq)]
            rfl

end Numbering

/-- How the steps of a chain are named. Each name is the base name of its step with the least suffix
    that is open to it, and no two names are the same. After `j` steps no counter has come further
    than `j`, so it and its suffix fit 32 bits in chains of less than `2 ^ 32 - 1` steps. Names stay
    when steps follow. Where no base name ends in a digit, the suffixes of each base count up. -/
theorem Chain.names_chosen (chain : Chain) (numbering : Numbering) :
    (chain.names numbering).length = chain.length ∧ (chain.names numbering).Nodup ∧
      (∀ j base, (chain.map Step.baseName)[j]? = some base →
        ∃ suffix, (chain.names numbering)[j]? = some (base ++ toString suffix) ∧
          IsLeast (numbering.Open (chain.map Step.baseName) j base) suffix ∧
          suffix = numbering.suffix (numbering.counter (chain.map Step.baseName) (j + 1) base)) ∧
      (∀ j base, numbering.counter (chain.map Step.baseName) j base ≤ j ∧
        (j < 2 ^ 32 - 1 →
          numbering.suffix (numbering.counter (chain.map Step.baseName) j base) < 2 ^ 32)) ∧
      (∀ more : Chain, chain.names numbering <+: Chain.names (chain ++ more) numbering) ∧
      ((∀ base ∈ chain.map Step.baseName, Numbering.Plain base) →
        ∀ j base, (chain.map Step.baseName)[j]? = some base →
          let k := ((chain.map Step.baseName).take (j + 1)).count base
          (chain.names numbering)[j]? = some (base ++ toString (match numbering with
            | .sequential => k
            | .legacy => if k = 1 then 1 else k + 1))) := by
  refine ⟨?_, Numbering.nodup_names numbering _, ?_, ?_, ?_, ?_⟩
  · rw [Chain.names, Numbering.length_names, List.length_map]
  · intro j base hj
    exact ⟨_, Numbering.getElem?_names hj, Numbering.isLeast_open hj, rfl⟩
  · intro j base
    have hle := Numbering.counter_le numbering (chain.map Step.baseName) j base
    refine ⟨hle, fun hj => ?_⟩
    exact (Numbering.suffix_le_succ numbering _).trans_lt (by omega)
  · intro more
    rw [Chain.names, Chain.names, List.map_append, Numbering.names_append]
    exact List.prefix_append _ _
  · intro hplain j base hj
    rw [Chain.names, Numbering.getElem?_names hj, Numbering.counter_eq_count hplain,
      Numbering.label_eq]
    cases numbering <;> rfl

-- The eleventh `Step` takes the name that `Step1` would get first.
example : (Numbering.sequential.names (List.replicate 11 "Step" ++ ["Step1"])).drop 10 =
    ["Step11", "Step12"] := by
  decide +kernel

end Tabular.Query
