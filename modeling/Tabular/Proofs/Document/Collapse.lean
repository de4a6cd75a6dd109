/- Storing the values at a place as text: which paths it changes, how many, and what undoes it. -/
import Mathlib
import Tabular.Proofs.Document.Encoded
import Tabular.Proofs.Json.Path

namespace Tabular.Document
open Tabular.Json
variable {f : Value → Value} {hop : Hop} {place rest : Place} {branch : Branch}
  {path : List Branch} {name : String} {v w : Value} {ms : Members} {prune : Bool}

/-- The paths that a place stands for. -/
inductive Covers : Place → List Branch → Prop where
  | here : Covers [] []
  | key (name : String) {rest : Place} {path : List Branch} : Covers rest path →
      Covers (.key name :: rest) (.key name :: path)
  | each (i : Nat) {rest : Place} {path : List Branch} : Covers rest path →
      Covers (.each :: rest) (.item i :: path)

/-- That a hop stands for a branch. -/
inductive Takes : Hop → Branch → Prop where
  | key (name : String) : Takes (.key name) (.key name)
  | each (i : Nat) : Takes .each (.item i)

/-- The paths of a value at which storing a place as text replaces something. -/
def openPaths (place : Place) (v : Value) : Set (List Branch) :=
  {path | Covers place path ∧ ∃ w, v.at? path = some w ∧ Opened w}

/-- That a value is another one but for what stands at some paths, which is changed. A path that
    does not lead through a change leads to the same leaf, to a list of the same length or to an
    object with the same keys; and if it leads to no change either, it leads to the same value. -/
structure ChangedAt (paths : Set (List Branch)) (f : Value → Value) (v w : Value) : Prop where
  changed : ∀ path ∈ paths, w.at? path = (v.at? path).map f
  outline : ∀ path, (∀ other ∈ paths, ¬ other <+: path) →
    (w.at? path).map Value.outline = (v.at? path).map Value.outline
  beside : ∀ path, (∀ other ∈ paths, ¬ other <+: path ∧ ¬ path <+: other) →
    w.at? path = v.at? path

theorem Takes.covers (h : Takes hop branch) (hpath : Covers rest path) :
    Covers (hop :: rest) (branch :: path) := by
  cases h with
  | key name => exact .key name hpath
  | each i => exact .each i hpath

theorem covers_nil : Covers [] path ↔ path = [] := by
  constructor
  · intro h
    cases h
    rfl
  · rintro rfl
    exact .here

theorem covers_cons : Covers (hop :: rest) path ↔
    ∃ branch below, Takes hop branch ∧ Covers rest below ∧ path = branch :: below := by
  constructor
  · intro h
    cases h with
    | key name hbelow => exact ⟨_, _, .key name, hbelow, rfl⟩
    | each i hbelow => exact ⟨_, _, .each i, hbelow, rfl⟩
  · rintro ⟨branch, below, htakes, hbelow, rfl⟩
    exact htakes.covers hbelow

theorem Takes.at?_alter (h : Takes hop branch) (f : Value → Value) (rest : Place)
    (path : List Branch) (v : Value) : (alter f (hop :: rest) v).at? (branch :: path) =
      (v.at? [branch]).bind fun w => (alter f rest w).at? path := by
  cases h with
  | key name => cases v with
    | obj ms =>
        rw [alter, Value.at?_key, Value.at?_key, Members.get?_update, if_pos rfl]
        cases Members.get? ms name <;> rfl
    | _ => rfl
  | each i => cases v with
    | arr items =>
        rw [alter, Value.at?_item, Value.at?_item, List.getElem?_map]
        cases items[i]? <;> rfl
    | _ => rfl

theorem at?_alter_of_not_takes (h : ¬ Takes hop branch) (f : Value → Value) (rest : Place)
    (path : List Branch) (v : Value) :
    (alter f (hop :: rest) v).at? (branch :: path) = v.at? (branch :: path) := by
  cases hop with
  | key name => cases v with
    | obj ms => cases branch with
      | key name' =>
          have hname : name ≠ name' := by
            rintro rfl
            exact h (.key name)
          rw [alter, Value.at?_key, Value.at?_key, Members.get?_update, if_neg hname]
      | item i => rfl
    | _ => rfl
  | each => cases v with
    | arr items => cases branch with
      | key name => rfl
      | item i => exact absurd (.each i) h
    | _ => rfl

theorem Covers.at?_alter (h : Covers place path) (f : Value → Value) (v : Value) :
    (alter f place v).at? path = (v.at? path).map f := by
  induction place generalizing path v with
  | nil =>
      cases covers_nil.mp h
      rfl
  | cons hop rest ih =>
      obtain ⟨branch, below, htakes, hbelow, rfl⟩ := covers_cons.mp h
      rw [htakes.at?_alter, Value.at?_cons branch below, Option.map_bind]
      congr 1
      exact funext (ih hbelow)

theorem mem_valuesAt_cons : w ∈ valuesAt (hop :: rest) v ↔
    ∃ branch u, Takes hop branch ∧ v.at? [branch] = some u ∧ w ∈ valuesAt rest u := by
  constructor
  · intro h
    cases hop with
    | key name => cases v with
      | obj ms =>
          rw [valuesAt] at h
          cases hget : Members.get? ms name with
          | none =>
              rw [hget] at h
              exact absurd h List.not_mem_nil
          | some u =>
              rw [hget] at h
              exact ⟨_, u, .key name, Value.at?_key_eq_some.mpr ⟨u, hget, u.at?_nil⟩, h⟩
      | _ => exact absurd h List.not_mem_nil
    | each => cases v with
      | arr items =>
          obtain ⟨u, hu, h⟩ := List.mem_flatMap.mp h
          obtain ⟨i, hi⟩ := List.getElem?_of_mem hu
          exact ⟨_, u, .each i, Value.at?_item_eq_some.mpr ⟨u, hi, u.at?_nil⟩, h⟩
      | _ => exact absurd h List.not_mem_nil
  · rintro ⟨branch, u, htakes, hat, hw⟩
    cases htakes with
    | key name => cases v with
      | obj ms =>
          obtain ⟨_, hget, hu⟩ := Value.at?_key_eq_some.mp hat
          cases hu
          rw [valuesAt, hget]
          exact hw
      | _ => cases hat
    | each i => cases v with
      | arr items =>
          obtain ⟨_, hget, hu⟩ := Value.at?_item_eq_some.mp hat
          cases hu
          exact List.mem_flatMap.mpr ⟨u, List.mem_of_getElem? hget, hw⟩
      | _ => cases hat

theorem mem_valuesAt : w ∈ valuesAt place v ↔ ∃ path, Covers place path ∧ v.at? path = some w := by
  induction place generalizing v with
  | nil =>
      simp only [valuesAt, List.mem_singleton, covers_nil, exists_eq_left, Value.at?_nil,
        Option.some.injEq, eq_comm]
  | cons hop rest ih =>
      rw [mem_valuesAt_cons]
      constructor
      · rintro ⟨branch, u, htakes, hu, hw⟩
        obtain ⟨below, hbelow, hw⟩ := ih.mp hw
        exact ⟨_, htakes.covers hbelow, Value.at?_cons_eq_some.mpr ⟨u, hu, hw⟩⟩
      · rintro ⟨path, hpath, hat⟩
        obtain ⟨branch, below, htakes, hbelow, rfl⟩ := covers_cons.mp hpath
        obtain ⟨u, hu, hw⟩ := Value.at?_cons_eq_some.mp hat
        exact ⟨branch, u, htakes, hu, ih.mpr ⟨below, hbelow, hw⟩⟩

theorem alter_eq_self (hf : ∀ path w, Covers place path → v.at? path = some w → f w = w) :
    alter f place v = v := by
  induction place generalizing v with
  | nil => exact hf [] v .here v.at?_nil
  | cons hop rest ih => cases hop with
    | key name => cases v with
      | obj ms =>
          rw [alter, Members.update_of_fixed]
          intro u hget
          apply ih
          intro path w hpath hw
          exact hf _ w (.key name hpath) (Value.at?_key_eq_some.mpr ⟨u, hget, hw⟩)
      | _ => rfl
    | each => cases v with
      | arr items =>
          rw [alter, map_eq_self_iff.mpr]
          intro u hu
          obtain ⟨i, hi⟩ := List.getElem?_of_mem hu
          apply ih
          intro path w hpath hw
          exact hf _ w (.each i hpath) (Value.at?_item_eq_some.mpr ⟨u, hi, hw⟩)
      | _ => rfl

theorem Covers.append {above : Place} {below : List Branch} (h : Covers above path)
    (hrest : Covers rest below) : Covers (above ++ rest) (path ++ below) := by
  induction h with
  | here => exact hrest
  | key name _ ih => exact .key name ih
  | each i _ ih => exact .each i ih

theorem outline_alter (f : Value → Value) (hop : Hop) (rest : Place) (v : Value) :
    (alter f (hop :: rest) v).outline = v.outline := by
  cases hop with
  | key name => cases v with
    | obj ms => rw [alter, Value.outline, Members.keys_update, Value.outline]
    | _ => rfl
  | each => cases v with
    | arr items => rw [alter, Value.outline, List.length_map, Value.outline]
    | _ => rfl

/-- A path that leads through no change is beside the changes, or above some of them. -/
theorem at?_alter_cases
    (hf : ∀ above w, Covers place above → above <+: path → v.at? above = some w → f w = w) :
    (alter f place v).at? path = v.at? path ∨
      ∃ above hop rest, place = above ++ hop :: rest ∧ Covers above path ∧
        (alter f place v).at? path = (v.at? path).map (alter f (hop :: rest)) := by
  induction place generalizing v path with
  | nil =>
      have hv : f v = v := hf [] v .here List.nil_prefix v.at?_nil
      rw [alter, hv]
      exact .inl rfl
  | cons hop rest ih => cases path with
    | nil =>
        right
        refine ⟨[], hop, rest, rfl, .here, ?_⟩
        rw [Value.at?_nil, Value.at?_nil, Option.map_some]
    | cons branch below =>
        by_cases htakes : Takes hop branch
        · rw [htakes.at?_alter, Value.at?_cons branch below]
          cases hat : v.at? [branch] with
          | none => exact .inl rfl
          | some u =>
              have hbelow : ∀ above w, Covers rest above → above <+: below →
                  u.at? above = some w → f w = w := by
                intro above w habove hpre hw
                exact hf _ w (htakes.covers habove) (List.cons_prefix_cons.mpr ⟨rfl, hpre⟩)
                  (Value.at?_cons_eq_some.mpr ⟨u, hat, hw⟩)
              rcases ih hbelow with heq | ⟨above, hop', rest', rfl, habove, heq⟩
              · exact .inl heq
              · exact .inr ⟨hop :: above, hop', rest', rfl, htakes.covers habove, heq⟩
        · exact .inl (at?_alter_of_not_takes htakes f rest below v)

/-- Changing what has a property at a place changes just that. -/
theorem changedAt_alter {P : Value → Prop} (hf : ∀ w, ¬ P w → f w = w) (place : Place)
    (v : Value) : ChangedAt {path | Covers place path ∧ ∃ w, v.at? path = some w ∧ P w} f v
      (alter f place v) := by
  have hfix : ∀ other w, Covers place other → v.at? other = some w →
      ¬ (Covers place other ∧ ∃ u, v.at? other = some u ∧ P u) → f w = w := by
    intro other w hother hw hnot
    exact hf w fun hP => hnot ⟨hother, w, hw, hP⟩
  constructor
  · intro path hpath
    exact hpath.1.at?_alter f v
  · intro path hpath
    have hthrough : ∀ above w, Covers place above → above <+: path → v.at? above = some w →
        f w = w := by
      intro above w habove hpre hw
      exact hfix above w habove hw fun hmem => hpath above hmem hpre
    rcases at?_alter_cases hthrough with heq | ⟨_, hop, rest, _, _, heq⟩
    · rw [heq]
    · rw [heq, Option.map_map]
      congr 1
      exact funext (outline_alter f hop rest)
  · intro path hpath
    have hthrough : ∀ above w, Covers place above → above <+: path → v.at? above = some w →
        f w = w := by
      intro above w habove hpre hw
      exact hfix above w habove hw fun hmem => (hpath above hmem).1 hpre
    rcases at?_alter_cases hthrough with heq | ⟨above, hop, rest, rfl, habove, heq⟩
    · exact heq
    · rw [heq]
      cases hat : v.at? path with
      | none => rfl
      | some u =>
          rw [Option.map_some, alter_eq_self]
          intro below w hbelow hw
          have hw' : v.at? (path ++ below) = some w := by
            rw [Value.at?_append, hat, Option.bind_some, hw]
          exact hfix _ w (habove.append hbelow) hw' fun hmem =>
            (hpath _ hmem).2 (List.prefix_append path below)

/-- Storing a place as text replaces the open values there, and nothing else. -/
theorem changedAt_collapse (prune : Bool) (place : Place) (v : Value) :
    ChangedAt (openPaths place v) (fun w => .str (kept prune w).text) v
      (collapse prune place v) := by
  have hclosed : ∀ w, ¬ Opened w → encodeValue prune w = w := fun _ =>
    encodeValue_of_not_opened
  have hchanged := changedAt_alter hclosed place v
  rw [← collapse_eq_alter] at hchanged
  refine ⟨?_, hchanged.outline, hchanged.beside⟩
  rintro path ⟨hpath, w, hat, hopen⟩
  rw [hchanged.changed path ⟨hpath, w, hat, hopen⟩, hat, Option.map_some, Option.map_some,
    encodeValue_of_opened hopen]

theorem openPaths_eq_empty (h : ∀ path w, Covers place path → v.at? path = some w → ¬ Opened w) :
    openPaths place v = ∅ := by
  rw [Set.eq_empty_iff_forall_notMem]
  rintro path ⟨hpath, w, hat, hopen⟩
  exact h path w hpath hat hopen

theorem openPaths_cons_eq_empty (h : ∀ branch, Takes hop branch → v.at? [branch] = none) :
    openPaths (hop :: rest) v = ∅ := by
  apply openPaths_eq_empty
  intro path w hpath hat
  obtain ⟨branch, below, htakes, _, rfl⟩ := covers_cons.mp hpath
  obtain ⟨u, hu, _⟩ := Value.at?_cons_eq_some.mp hat
  rw [h branch htakes] at hu
  cases hu

theorem mem_openPaths_cons {below : List Branch} (h : Takes hop branch)
    (hat : v.at? [branch] = some w) :
    branch :: below ∈ openPaths (hop :: rest) v ↔ below ∈ openPaths rest w := by
  constructor
  · rintro ⟨hpath, u, hu, hopen⟩
    obtain ⟨_, _, _, hbelow, ⟨⟩⟩ := covers_cons.mp hpath
    rw [Value.at?_cons branch below, hat, Option.bind_some] at hu
    exact ⟨hbelow, u, hu, hopen⟩
  · rintro ⟨hbelow, u, hu, hopen⟩
    exact ⟨h.covers hbelow, u, Value.at?_cons_eq_some.mpr ⟨w, hat, hu⟩, hopen⟩

theorem openPaths_key {u : Value} (hget : Members.get? ms name = some u) :
    openPaths (.key name :: rest) (.obj ms) = List.cons (.key name) '' openPaths rest u := by
  have hat : (Value.obj ms).at? [.key name] = some u :=
    Value.at?_key_eq_some.mpr ⟨u, hget, u.at?_nil⟩
  ext path
  constructor
  · intro hpath
    obtain ⟨_, below, ⟨_⟩, _, rfl⟩ := covers_cons.mp hpath.1
    exact ⟨below, (mem_openPaths_cons (.key name) hat).mp hpath, rfl⟩
  · rintro ⟨below, hbelow, rfl⟩
    exact (mem_openPaths_cons (.key name) hat).mpr hbelow

theorem openPaths_each (items : List Value) : openPaths (.each :: rest) (.arr items) =
    ⋃ i : Fin items.length, List.cons (.item i) '' openPaths rest items[i] := by
  have hat : ∀ i : Fin items.length, (Value.arr items).at? [.item i] = some items[i] :=
    fun i => Value.at?_item_eq_some.mpr ⟨_, List.getElem?_eq_getElem i.isLt, Value.at?_nil _⟩
  ext path
  rw [Set.mem_iUnion]
  constructor
  · intro hpath
    obtain ⟨_, below, htakes, _, rfl⟩ := covers_cons.mp hpath.1
    cases htakes with | each i =>
    obtain ⟨w, hw, _⟩ := hpath.2
    obtain ⟨u, hget, _⟩ := Value.at?_item_eq_some.mp hw
    obtain ⟨hi, _⟩ := List.getElem?_eq_some_iff.mp hget
    exact ⟨⟨i, hi⟩, below, (mem_openPaths_cons (.each i) (hat ⟨i, hi⟩)).mp hpath, rfl⟩
  · rintro ⟨i, below, hbelow, rfl⟩
    exact (mem_openPaths_cons (.each i) (hat i)).mpr hbelow

theorem encodable_key (name : String) (rest : Place) (ms : Members) :
    encodable (.key name :: rest) (.obj ms) =
      ((Members.get? ms name).map (encodable rest)).getD 0 := rfl

theorem encodable_each (rest : Place) (items : List Value) :
    encodable (.each :: rest) (.arr items) = (items.map (encodable rest)).sum := rfl

theorem encard_openPaths_nil (v : Value) : (openPaths [] v).encard = encodable [] v := by
  by_cases hopen : Opened v
  · have hone : openPaths [] v = {[]} := by
      ext path
      rw [Set.mem_singleton_iff, ← covers_nil]
      refine ⟨fun h => h.1, fun h => ⟨h, v, ?_, hopen⟩⟩
      rw [covers_nil.mp h, Value.at?_nil]
    rw [hone, Set.encard_singleton]
    cases v <;> first | rfl | exact hopen.elim
  · rw [openPaths_eq_empty, Set.encard_empty]
    · cases v <;> first | rfl | exact absurd trivial hopen
    · intro path w hpath hat
      cases covers_nil.mp hpath
      cases hat
      exact hopen

theorem encard_openPaths_key (hrest : ∀ v, (openPaths rest v).encard = encodable rest v)
    (name : String) (v : Value) :
    (openPaths (.key name :: rest) v).encard = encodable (.key name :: rest) v := by
  cases v with
  | obj ms =>
      cases hget : Members.get? ms name with
      | none =>
          rw [openPaths_cons_eq_empty, Set.encard_empty, encodable_key, hget]
          · rfl
          · rintro _ ⟨⟩
            rw [Value.at?_key, hget, Option.bind_none]
      | some u =>
          rw [openPaths_key hget, List.cons_injective.encard_image, hrest, encodable_key, hget]
          rfl
  | _ =>
      rw [openPaths_cons_eq_empty, Set.encard_empty]
      · rfl
      · rintro _ ⟨⟩
        rfl

theorem encard_openPaths_each (hrest : ∀ v, (openPaths rest v).encard = encodable rest v)
    (v : Value) : (openPaths (.each :: rest) v).encard = encodable (.each :: rest) v := by
  cases v with
  | arr items =>
      have hdisjoint : Pairwise fun i j : Fin items.length =>
          Disjoint (List.cons (Branch.item i) '' openPaths rest items[i])
            (List.cons (Branch.item j) '' openPaths rest items[j]) := by
        intro i j hij
        rw [Set.disjoint_left]
        rintro _ ⟨below, _, rfl⟩ ⟨below', _, heq⟩
        injection heq with hhead _
        injection hhead with hval
        exact hij (Fin.ext hval.symm)
      rw [openPaths_each, Set.encard_iUnion_of_finite hdisjoint, finsum_eq_sum_of_fintype]
      simp only [List.cons_injective.encard_image, hrest]
      rw [← Nat.cast_sum, encodable_each]
      exact congrArg Nat.cast (Fin.sum_univ_fun_getElem items (encodable rest))
  | _ =>
      rw [openPaths_cons_eq_empty, Set.encard_empty]
      · rfl
      · rintro _ ⟨⟩
        rfl

/-- The values that storing a place turns into text are counted, each once. -/
theorem encard_openPaths (place : Place) (v : Value) :
    (openPaths place v).encard = encodable place v := by
  induction place generalizing v with
  | nil => exact encard_openPaths_nil v
  | cons hop rest ih => cases hop with
    | key name => exact encard_openPaths_key ih name v
    | each => exact encard_openPaths_each ih v

theorem encodable_eq_zero_iff : encodable place v = 0 ↔ openPaths place v = ∅ := by
  rw [← Set.encard_eq_zero, encard_openPaths, Nat.cast_eq_zero]

theorem openPaths_collapse (prune : Bool) (place : Place) (v : Value) :
    openPaths place (collapse prune place v) = ∅ := by
  apply openPaths_eq_empty
  intro path w hpath hat
  rw [collapse_eq_alter, hpath.at?_alter, Option.map_eq_some_iff] at hat
  obtain ⟨u, _, rfl⟩ := hat
  exact not_opened_encodeValue prune u

theorem collapse_collapse (again prune : Bool) (place : Place) (v : Value) :
    collapse again place (collapse prune place v) = collapse prune place v := by
  rw [collapse_eq_alter again]
  apply alter_eq_self
  intro path w hpath hat
  apply encodeValue_of_not_opened
  intro hopen
  have hmem : path ∈ openPaths place (collapse prune place v) := ⟨hpath, w, hat, hopen⟩
  rwa [openPaths_collapse] at hmem

theorem apart_single (hv : v.Keyed) (place : Place) : Apart [place] v :=
  Independent.apart (List.pairwise_singleton _ place) hv

theorem holdsAt_single {Q : Value → Prop} : HoldsAt Q [place] v ↔
    ∀ path w, Covers place path → v.at? path = some w → Q w := by
  rw [HoldsAt, List.forall_mem_singleton]
  constructor
  · intro h path w hpath hat
    exact h w (mem_valuesAt.mpr ⟨path, hpath, hat⟩)
  · intro h w hw
    obtain ⟨path, hpath, hat⟩ := mem_valuesAt.mp hw
    exact h path w hpath hat

/-- What a document without encoded texts had at a place comes back from the texts there. -/
theorem expand_collapse (hkeyed : v.Keyed) (hplain : v.Plain) (hv : v.Integral)
    (hle : ∀ path ∈ openPaths place v, ∀ w, v.at? path = some w →
      (kept prune w).nesting ≤ nestingLimit) :
    (collapse prune place v).expand = alter (kept prune) place v := by
  have hread : HoldsAt (fun w => (encodeValue prune w).expand = kept prune w) [place] v := by
    rw [holdsAt_single]
    intro path w hpath hat
    have hw : w.Plain := Value.Leaves.at? hplain hat
    by_cases hopen : Opened w
    · have hkeyed' := holdsAt_single.mp (hereditary_keyed.holdsAt hkeyed [place]) path w hpath hat
      exact (expand_encodeValue hkeyed' (Value.Leaves.at? hv hat) hw).1
        (hle path ⟨hpath, w, hat, hopen⟩ w hat)
    · rw [encodeValue_of_not_opened hopen, kept_of_not_opened hopen, hw.expand_eq]
  calc (collapse prune place v).expand
    _ = (alterAll (encodeValue prune) [place] v).expand := by
      rw [collapse_eq_alter]
      rfl
    _ = alterAll (Value.expand ∘ encodeValue prune) [place] v :=
      expand_alterAll (List.pairwise_singleton _ place) hkeyed hplain
        fun w _ => keyed_encodeValue w
    _ = alterAll (kept prune) [place] v := (apart_single hkeyed place).alterAll_congr hread

/-- Storing a place as text replaces the values there that are neither null nor text, each by its
    compact text, and nothing else; and it counts them. Doing it again changes and counts nothing.
    If no text of the document held a document before, opening the result gives back what was
    there, without the null members that were dropped. -/
theorem collapse_replaces_open_values (d : Json.Document) (place : Place) (prune : Bool) :
    (openPaths place d.value).encard = encodable place d.value ∧
      ChangedAt (openPaths place d.value) (fun w => .str (kept prune w).text) d.value
        (collapse prune place d.value) ∧
      (∀ again, encodable place (collapse prune place d.value) = 0 ∧
        collapse again place (collapse prune place d.value) = collapse prune place d.value) ∧
      (d.value.expand = d.value → d.value.Integral →
        (∀ path ∈ openPaths place d.value, ∀ w, d.value.at? path = some w →
          (kept prune w).nesting ≤ 127) →
        (collapse prune place d.value).expand =
          if prune then alter Value.prune place d.value else d.value) := by
  refine ⟨encard_openPaths place d.value, changedAt_collapse prune place d.value, ?_, ?_⟩
  · intro again
    refine ⟨?_, collapse_collapse again prune place d.value⟩
    rw [encodable_eq_zero_iff, openPaths_collapse]
  · intro hexpand hv hle
    have hplain : d.value.Plain := hexpand ▸ d.value.plain_expand
    rw [expand_collapse d.keyed hplain hv hle]
    cases prune with
    | true => rfl
    | false => exact alter_eq_self fun _ _ _ _ => rfl

/-- A document with a value to store in some of its sections. -/
def mixedSections : Json.Document where
  value := .obj
    [("sections", .arr
      [.obj [("config", .obj [("zoom", .null), ("pages", .arr [.ofInt 1, .null])])],
        .obj [("config", .str "none")], .obj [("config", .null)], .obj [("name", .null)],
        .arr [], .obj [("name", .str "x"), ("config", .bool true)]])]
  keyed := by decide

theorem collapse_replaces_open_values_mixedSections :
    (openPaths [.key "sections", .each, .key "config"] mixedSections.value).encard = (2 : ℕ) ∧
      (collapse true [.key "sections", .each, .key "config"] mixedSections.value).expand = .obj
        [("sections", .arr
          [.obj [("config", .obj [("pages", .arr [.ofInt 1, .null])])],
            .obj [("config", .str "none")], .obj [("config", .null)], .obj [("name", .null)],
            .arr [], .obj [("name", .str "x"), ("config", .bool true)]])] := by
  obtain ⟨hcount, _, _, hexpand⟩ := collapse_replaces_open_values mixedSections
    [.key "sections", .each, .key "config"] true
  have hvalues : ∀ w ∈ valuesAt [.key "sections", .each, .key "config"] mixedSections.value,
      (kept true w).nesting ≤ 127 := by decide
  refine ⟨hcount, ?_⟩
  rw [hexpand (by cbv) (by cbv)]
  · rfl
  · rintro path ⟨hpath, _⟩ w hat
    exact hvalues w (mem_valuesAt.mpr ⟨path, hpath, hat⟩)

end Tabular.Document
