/- Which names of parts stay below a folder, and where they lead. -/
import Tabular.Disk.Template
import Tabular.Proofs.Text.Split

namespace Tabular.Disk
variable {path segment : List Char} {place out : Path} {name : String}

/-- A path that does not begin at the root, and nowhere goes to the folder above. -/
structure Contained (path : List Char) : Prop where
  relative : path.head? ≠ some '/'
  below : ['.', '.'] ∉ segments path

theorem all_leading_iff (path : List Char) :
    (leading path).all Component.staysBelow = true ↔ path.head? ≠ some '/' := by
  rw [leading]
  split
  · rename_i hroot
    exact ⟨fun h => absurd h (by decide), fun h => absurd hroot h⟩
  · rename_i hrelative
    refine ⟨fun _ => hrelative, fun _ => ?_⟩
    split <;> rfl

/-- Of what has no slash, two points alone lead above. -/
theorem forall_ofSegment?_iff (segment : List Char) :
    (∀ c, Component.ofSegment? segment = some c → c.staysBelow = true) ↔ segment ≠ ['.', '.'] := by
  rw [Component.ofSegment?]
  split
  · rename_i habove
    exact ⟨fun h => absurd (h .above rfl) Bool.false_ne_true, fun h => absurd habove h⟩
  · rename_i hbelow
    refine ⟨fun _ => hbelow, ?_⟩
    intro _ c hc
    split at hc
    · cases hc
      rfl
    · cases hc

theorem isInside_iff (path : List Char) : isInside path = true ↔ Contained path := by
  have hsegments :
      ((segments path).filterMap Component.ofSegment?).all Component.staysBelow = true ↔
        ['.', '.'] ∉ segments path := by
    simp only [List.all_eq_true, List.mem_filterMap, forall_exists_index, and_imp]
    constructor
    · intro h habove
      exact (forall_ofSegment?_iff _).mp (fun c => h c _ habove) rfl
    · intro h c segment hsegment
      refine (forall_ofSegment?_iff segment).mpr ?_ c
      rintro rfl
      exact h hsegment
  rw [isInside, components, List.all_append, Bool.and_eq_true, all_leading_iff, hsegments]
  exact ⟨fun h => ⟨h.1, h.2⟩, fun h => ⟨h.relative, h.below⟩⟩

instance (path : List Char) : Decidable (Contained path) :=
  decidable_of_iff (isInside path = true) (isInside_iff path)

/-- The names in the name of a part, from the folder that it is unpacked into. -/
def ordinary (name : String) : Path := (names name.toList).map String.ofList

theorem target_of_contained (h : Contained name.toList) : target name = .ok (ordinary name) := by
  rw [target, if_pos ((isInside_iff _).mpr h)]
  rfl

theorem target_of_not_contained (h : ¬ Contained name.toList) :
    target name = .error (.escapes name) := by
  rw [target, if_neg (mt (isInside_iff _).mp h)]

theorem exists_target_iff (name : String) : (∃ path, target name = .ok path) ↔
    name.toList.head? ≠ some '/' ∧ ['.', '.'] ∉ segments name.toList := by
  by_cases h : Contained name.toList
  · exact ⟨fun _ => ⟨h.relative, h.below⟩, fun _ => ⟨_, target_of_contained h⟩⟩
  · rw [target_of_not_contained h]
    exact ⟨fun ⟨_, hok⟩ => (nomatch hok), fun ⟨hrelative, hbelow⟩ => absurd ⟨hrelative, hbelow⟩ h⟩

/-- Where a part of a path leads by its text alone. -/
def follow (place : Path) (segment : List Char) : Path :=
  if segment = ['.', '.'] then place.dropLast
  else if isName segment then place ++ [String.ofList segment]
  else place

/-- Where a path leads from a folder, by its text alone. -/
def resolve (place : Path) (path : List Char) : Path :=
  (segments path).foldl follow (if path.head? = some '/' then [] else place)

theorem foldl_follow (place : Path) (parts : List (List Char)) (h : ['.', '.'] ∉ parts) :
    parts.foldl follow place = place ++ (parts.filter isName).map String.ofList := by
  induction parts generalizing place with
  | nil => exact (List.append_nil place).symm
  | cons part parts ih =>
      obtain ⟨hpart, hparts⟩ := List.ne_and_not_mem_of_not_mem_cons h
      rw [List.foldl_cons, ih _ hparts, follow, if_neg (Ne.symm hpart), List.filter_cons]
      split
      · rw [List.append_assoc, List.map_cons, List.singleton_append]
      · rfl

/-- What can be a name in a folder: no slash is in it, and it is neither empty nor points. -/
structure Plain (name : String) : Prop where
  noSlash : '/' ∉ name.toList
  isName : isName name.toList = true
  notAbove : name.toList ≠ ['.', '.']

theorem toList_join (out : Path) (name : String) : (pathText out ++ "/" ++ name).toList =
    (out.flatMap fun n => '/' :: n.toList) ++ '/' :: name.toList := by
  rw [String.toList_append, String.toList_append, pathText, String.toList_join, List.flatMap_map,
    List.append_assoc]
  simp only [String.toList_append]
  rfl

theorem segments_join (h : ∀ n ∈ out, Plain n) (name : String) :
    segments (pathText out ++ "/" ++ name).toList =
      [] :: (out.map String.toList ++ segments name.toList) := by
  rw [toList_join, segments]
  induction out with
  | nil => exact Text.splitChars_mark '/' name.toList
  | cons n out ih =>
      obtain ⟨hn, hout⟩ := List.forall_mem_cons.mp h
      have hsplit := Text.splitChars_append_of_notMem hn.noSlash (ih hout)
      rw [List.append_nil] at hsplit
      rw [List.flatMap_cons, List.append_assoc, List.cons_append, Text.splitChars_mark, hsplit]
      rfl

/-- The text of a folder and of an accepted name resolves to the names of the one and the other. -/
theorem resolve_join (hout : ∀ n ∈ out, Plain n) (h : Contained name.toList) :
    resolve [] (pathText out ++ "/" ++ name).toList = out ++ ordinary name := by
  have hbelow : ['.', '.'] ∉ [] :: (out.map String.toList ++ segments name.toList) := by
    refine List.not_mem_cons_of_ne_of_not_mem (List.cons_ne_nil _ _) ?_
    rw [List.mem_append, not_or, List.mem_map]
    refine ⟨?_, h.below⟩
    rintro ⟨n, hn, habove⟩
    exact (hout n hn).notAbove habove
  have hnames : (out.map String.toList).filter isName = out.map String.toList :=
    List.filter_eq_self.mpr (List.forall_mem_map.mpr fun n hn => (hout n hn).isName)
  have hback : (out.map String.toList).map String.ofList = out := by
    have hid : String.ofList ∘ String.toList = id := funext fun _ => String.ofList_toList
    rw [List.map_map, hid, List.map_id]
  have hempty : ¬ isName [] = true := by decide
  rw [resolve, ite_self, segments_join hout, foldl_follow _ _ hbelow, List.filter_cons,
    if_neg hempty, List.filter_append, hnames, List.map_append, hback]
  rfl

/-- A name that has something between each two slashes, and no points alone. -/
def Tidy (name : String) : Prop :=
  ∀ segment ∈ segments name.toList, segment ≠ [] ∧ segment ≠ ['.'] ∧ segment ≠ ['.', '.']

instance (name : String) : Decidable (Tidy name) :=
  inferInstanceAs (Decidable (∀ segment ∈ segments name.toList,
    segment ≠ [] ∧ segment ≠ ['.'] ∧ segment ≠ ['.', '.']))

theorem isName_iff (segment : List Char) :
    isName segment = true ↔ segment ≠ [] ∧ segment ≠ ['.'] := by
  rw [isName, Bool.and_eq_true, bne_iff_ne, bne_iff_ne]

theorem Tidy.contained (h : Tidy name) : Contained name.toList where
  relative := by
    intro hroot
    obtain ⟨rest, hrest⟩ := List.head?_eq_some_iff.mp hroot
    have hempty : [] ∈ segments name.toList := by
      rw [hrest, segments, Text.splitChars_mark]
      exact List.mem_cons_self
    exact (h [] hempty).1 rfl
  below := fun habove => (h _ habove).2.2 rfl

/-- The names in a tidy name are all of its parts. -/
theorem Tidy.ordinary_eq (h : Tidy name) :
    ordinary name = (segments name.toList).map String.ofList := by
  have hnames : names name.toList = segments name.toList := by
    refine List.filter_eq_self.mpr ?_
    intro segment hsegment
    obtain ⟨hempty, hpoint, _⟩ := h segment hsegment
    exact (isName_iff segment).mpr ⟨hempty, hpoint⟩
  rw [ordinary, hnames]

theorem Tidy.ordinary_ne_nil (h : Tidy name) : ordinary name ≠ [] := by
  rw [h.ordinary_eq]
  exact mt List.map_eq_nil_iff.mp (Text.splitChars_ne_nil '/' name.toList)

theorem Tidy.intercalate (h : Tidy name) : "/".intercalate (ordinary name) = name := by
  have hid : String.toList ∘ String.ofList = id := funext fun _ => String.toList_ofList
  have hchars : ("/".intercalate (ordinary name)).toList = name.toList := by
    rw [String.toList_intercalate, h.ordinary_eq, List.map_map, hid, List.map_id]
    exact Text.intercalate_splitChars '/' name.toList
  exact String.toList_inj.mp hchars

theorem Tidy.endsInFolder (h : Tidy name) : endsInFolder name.toList = false := by
  cases hlast : (segments name.toList).getLast? with
  | none => exact absurd (List.getLast?_eq_none_iff.mp hlast) (Text.splitChars_ne_nil _ _)
  | some segment =>
      obtain ⟨hempty, hpoint, _⟩ := h segment (List.mem_of_getLast? hlast)
      rw [Disk.endsInFolder, hlast, Option.any_some, (isName_iff segment).mpr ⟨hempty, hpoint⟩]
      rfl

end Tabular.Disk
