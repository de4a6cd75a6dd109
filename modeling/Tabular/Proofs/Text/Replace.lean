/- Replacing replaces every occurrence of a pattern from the left, and nothing else. -/
import Mathlib.Data.List.Infix
import Tabular.Text.Replace

namespace Tabular.Text
variable {pattern replacement before after cs out : List Char}

/-- A text, and what it is when a pattern has been replaced in it. Occurrences are taken from the
    left: none reaches into the text before the one that is replaced, and the next one is looked for
    after it. -/
inductive Replaced (pattern replacement : List Char) : List Char → List Char → Prop where
  | none {cs : List Char} : ¬ pattern <:+: cs → Replaced pattern replacement cs cs
  | first {before after out : List Char} : ¬ pattern <:+: before ++ pattern.dropLast →
      Replaced pattern replacement after out →
      Replaced pattern replacement (before ++ (pattern ++ after)) (before ++ (replacement ++ out))

theorem replaceChars_skip (pattern replacement : List Char) (skip : Nat) (cs : List Char) :
    replaceChars pattern replacement skip cs =
      replaceChars pattern replacement 0 (cs.drop skip) := by
  induction skip generalizing cs with
  | zero => rfl
  | succ skip ih =>
      cases cs with
      | nil => rfl
      | cons c cs => exact ih cs

theorem replaceChars_of_starts (h : pattern ≠ []) (after : List Char) :
    replaceChars pattern replacement 0 (pattern ++ after) =
      replacement ++ replaceChars pattern replacement 0 after := by
  cases pattern with
  | nil => exact absurd rfl h
  | cons c pattern =>
      have hprefix : (c :: pattern).isPrefixOf (c :: (pattern ++ after)) :=
        List.isPrefixOf_iff_prefix.mpr (List.prefix_append (c :: pattern) after)
      rw [List.cons_append, replaceChars, if_pos ⟨h, hprefix⟩, replaceChars_skip,
        List.length_cons, Nat.add_sub_cancel, List.drop_left]

theorem replaceChars_of_not_starts {c : Char} (h : ¬ pattern <+: c :: cs) :
    replaceChars pattern replacement 0 (c :: cs) =
      c :: replaceChars pattern replacement 0 cs := by
  rw [replaceChars, if_neg fun hp => h (List.isPrefixOf_iff_prefix.mp hp.2)]

theorem replaceChars_of_absent (h : ¬ pattern <:+: cs) :
    replaceChars pattern replacement 0 cs = cs := by
  induction cs with
  | nil => rfl
  | cons c cs ih =>
      rw [List.infix_cons_iff, not_or] at h
      rw [replaceChars_of_not_starts h.1, ih h.2]

theorem dropLast_prefix_append (before pattern after : List Char) :
    before ++ pattern.dropLast <+: before ++ (pattern ++ after) :=
  (List.prefix_append_right_inj before).mpr
    ((List.dropLast_prefix pattern).trans (List.prefix_append pattern after))

/-- Up to the first occurrence, a text stays as it is. -/
theorem replaceChars_of_first (hpattern : pattern ≠ [])
    (h : ¬ pattern <:+: before ++ pattern.dropLast) (after : List Char) :
    replaceChars pattern replacement 0 (before ++ (pattern ++ after)) =
      before ++ (replacement ++ replaceChars pattern replacement 0 after) := by
  induction before with
  | nil => exact replaceChars_of_starts hpattern after
  | cons c before ih =>
      rw [List.cons_append, List.infix_cons_iff, not_or] at h
      have hprefix : ¬ pattern <+: c :: (before ++ (pattern ++ after)) := by
        -- A pattern that starts here ends before the last character of the known occurrence.
        intro hp
        refine h.1 (List.prefix_of_prefix_length_le hp
          (dropLast_prefix_append (c :: before) pattern after) ?_)
        rw [List.length_cons, List.length_append, List.length_dropLast]
        omega
      rw [List.cons_append, replaceChars_of_not_starts hprefix, ih h.2, List.cons_append]

theorem exists_first (hpattern : pattern ≠ []) (h : pattern <:+: cs) :
    ∃ before after, cs = before ++ (pattern ++ after) ∧
      ¬ pattern <:+: before ++ pattern.dropLast := by
  induction cs with
  | nil => exact absurd (List.infix_nil.mp h) hpattern
  | cons c cs ih =>
      by_cases hprefix : pattern <+: c :: cs
      · obtain ⟨after, hafter⟩ := hprefix
        refine ⟨[], after, hafter.symm, fun hinfix => ?_⟩
        have hlength := hinfix.length_le
        have hpos := List.length_pos_of_ne_nil hpattern
        rw [List.nil_append, List.length_dropLast] at hlength
        omega
      · obtain ⟨before, after, rfl, hfirst⟩ := ih ((List.infix_cons_iff.mp h).resolve_left hprefix)
        refine ⟨c :: before, after, rfl, fun hinfix => ?_⟩
        rcases List.infix_cons_iff.mp hinfix with hp | hi
        · exact hprefix (hp.trans (dropLast_prefix_append (c :: before) pattern after))
        · exact hfirst hi

theorem Replaced.eq (hpattern : pattern ≠ []) (h : Replaced pattern replacement cs out) :
    replaceChars pattern replacement 0 cs = out := by
  induction h with
  | none hnone => exact replaceChars_of_absent hnone
  | first hfirst _ ih => rw [replaceChars_of_first hpattern hfirst, ih]

/-- Every text has a replaced one: after each occurrence, less of it is left. -/
theorem exists_replaced (hpattern : pattern ≠ []) (replacement cs : List Char) :
    ∃ out, Replaced pattern replacement cs out := by
  induction hn : cs.length using Nat.strong_induction_on generalizing cs with
  | h n ih =>
      by_cases h : pattern <:+: cs
      · obtain ⟨before, after, rfl, hfirst⟩ := exists_first hpattern h
        have hpos := List.length_pos_of_ne_nil hpattern
        rw [List.length_append, List.length_append] at hn
        obtain ⟨out, hout⟩ := ih after.length (by omega) after rfl
        exact ⟨_, .first hfirst hout⟩
      · exact ⟨cs, .none h⟩

theorem replaced_iff (hpattern : pattern ≠ []) :
    Replaced pattern replacement cs out ↔ replaceChars pattern replacement 0 cs = out := by
  constructor
  · exact Replaced.eq hpattern
  · rintro rfl
    obtain ⟨out, hout⟩ := exists_replaced hpattern replacement cs
    rwa [hout.eq hpattern]

theorem prefix_of_prefix_append_cons {c : Char} (hc : c ∉ pattern) (before : List Char)
    (h : pattern <+: before ++ c :: after) : pattern <+: before := by
  have hsplit : before ++ c :: after = before ++ [c] ++ after := by simp
  by_cases hle : pattern.length ≤ before.length
  · exact List.prefix_of_prefix_length_le h (List.prefix_append before _) hle
  · have hlong : before ++ [c] <+: pattern := by
      refine List.prefix_of_prefix_length_le (hsplit ▸ List.prefix_append _ after) h ?_
      rw [List.length_append, List.length_singleton]
      omega
    exact absurd (hlong.subset (List.mem_append_right before List.mem_cons_self)) hc

/-- A character that is not in the pattern cuts a text: both sides are replaced in apart. -/
theorem replaceChars_append_cons {c : Char} (hpattern : pattern ≠ []) (hc : c ∉ pattern)
    (before after : List Char) :
    replaceChars pattern replacement 0 (before ++ c :: after) =
      replaceChars pattern replacement 0 before ++
        c :: replaceChars pattern replacement 0 after := by
  have hcut : ∀ cs, ¬ pattern <:+: cs → replaceChars pattern replacement 0 (cs ++ c :: after) =
      cs ++ c :: replaceChars pattern replacement 0 after := by
    intro cs hcs
    induction cs with
    | nil =>
        refine replaceChars_of_not_starts fun hp => hpattern ?_
        exact List.prefix_nil.mp (prefix_of_prefix_append_cons hc [] hp)
    | cons d cs ih =>
        rw [List.infix_cons_iff, not_or] at hcs
        have hstart : ¬ pattern <+: d :: (cs ++ c :: after) := fun hp =>
          hcs.1 (prefix_of_prefix_append_cons hc (d :: cs) hp)
        rw [List.cons_append, replaceChars_of_not_starts hstart, ih hcs.2, List.cons_append]
  obtain ⟨out, hout⟩ := exists_replaced hpattern replacement before
  rw [hout.eq hpattern]
  induction hout with
  | none hnone => exact hcut _ hnone
  | first hfirst _ ih =>
      simp only [List.append_assoc]
      rw [replaceChars_of_first hpattern hfirst, ih]

theorem replaceChars_cons {c : Char} (hpattern : pattern ≠ []) (hc : c ∉ pattern)
    (cs : List Char) : replaceChars pattern replacement 0 (c :: cs) =
      c :: replaceChars pattern replacement 0 cs :=
  replaceChars_append_cons hpattern hc [] cs

theorem notMem_replaceChars {c : Char} (hpattern : pattern ≠ []) (hreplacement : c ∉ replacement)
    (h : c ∉ cs) : c ∉ replaceChars pattern replacement 0 cs := by
  obtain ⟨out, hout⟩ := exists_replaced hpattern replacement cs
  rw [hout.eq hpattern]
  induction hout with
  | none hnone => exact h
  | first hfirst _ ih =>
      simp only [List.mem_append, not_or] at h ⊢
      exact ⟨h.1, hreplacement, ih h.2.2⟩

/-- Each replacement takes away the pattern and puts its replacement, so the lengths tell how many
    there have been. -/
theorem Replaced.length_eq (h : Replaced pattern replacement cs out) :
    ∃ n, out.length + n * pattern.length = cs.length + n * replacement.length ∧
      (pattern <:+: cs → 0 < n) := by
  induction h with
  | none hnone => exact ⟨0, by simp, fun h => absurd h hnone⟩
  | first hfirst _ ih =>
      obtain ⟨n, hlength, -⟩ := ih
      refine ⟨n + 1, ?_, fun _ => Nat.succ_pos n⟩
      simp only [List.length_append, Nat.succ_mul]
      omega

theorem exists_length_replaceChars (hpattern : pattern ≠ []) (replacement cs : List Char) :
    ∃ n, (replaceChars pattern replacement 0 cs).length + n * pattern.length =
      cs.length + n * replacement.length ∧ (pattern <:+: cs → 0 < n) :=
  ((replaced_iff hpattern).mpr rfl).length_eq

/-- A replacement of another length shows. -/
theorem replaceChars_eq_self_iff (hpattern : pattern ≠ [])
    (hlength : replacement.length ≠ pattern.length) :
    replaceChars pattern replacement 0 cs = cs ↔ ¬ pattern <:+: cs := by
  refine ⟨fun heq hinfix => ?_, replaceChars_of_absent⟩
  obtain ⟨n, hn, hpos⟩ := exists_length_replaceChars hpattern replacement cs
  rw [heq, Nat.add_left_cancel_iff] at hn
  exact hlength (Nat.eq_of_mul_eq_mul_left (hpos hinfix) hn).symm

/-- A shorter replacement and a longer one agree where there is nothing to replace. -/
theorem replaceChars_eq_iff {shorter longer : List Char} (hpattern : pattern ≠ [])
    (hshorter : shorter.length < pattern.length) (hlonger : pattern.length < longer.length) :
    replaceChars pattern shorter 0 cs = replaceChars pattern longer 0 cs ↔
      ¬ pattern <:+: cs := by
  constructor
  · intro heq hinfix
    obtain ⟨m, hm, hmpos⟩ := exists_length_replaceChars hpattern shorter cs
    obtain ⟨n, hn, hnpos⟩ := exists_length_replaceChars hpattern longer cs
    have hless := Nat.mul_lt_mul_of_pos_left hshorter (hmpos hinfix)
    have hmore := Nat.mul_lt_mul_of_pos_left hlonger (hnpos hinfix)
    rw [heq] at hm
    omega
  · intro hnone
    rw [replaceChars_of_absent hnone, replaceChars_of_absent hnone]

end Tabular.Text
