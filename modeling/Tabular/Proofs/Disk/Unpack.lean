/- Unpacking writes below the folder it is given, up to the first name that leads out of it. -/
import Tabular.Proofs.Container.ReadAll
import Tabular.Proofs.Disk.Path
import Tabular.Proofs.Disk.Tree

namespace Tabular.Disk
open Tabular.Archive (Part)
variable {root root' root'' : Node} {source out path q : Path} {p bad : Part}
  {parts before after done : List Part} {a : Archive} {bytes : List UInt8}

/-- The file at a path is an archive that opens, and all of its files can be read. -/
structure Readable (root : Node) (source : Path) (a : Archive) (parts : List Part) : Prop where
  archive : ∃ bytes, root.read? source = some bytes ∧ Archive.ofBytes .file bytes = .ok a
  opens : Container.ofArchive .default a = .ok ⟨a, .default, 0⟩
  reads : (Container.readAll ⟨a, .default, 0⟩).2.result = .ok parts

theorem load_eq_ok : load root source = .ok bytes ↔ root.read? source = some bytes := by
  rw [load]
  cases root.read? source with
  | none => exact ⟨fun h => (nomatch h), fun h => (nomatch h)⟩
  | some held =>
      exact ⟨fun h => congrArg some (Except.ok.inj h), fun h => congrArg _ (Option.some.inj h)⟩

theorem exists_readable_iff : (∃ a, Readable root source a parts) ↔
    (Traced.lift (load root source) >>= Container.partsOf .file).result = .ok parts := by
  rw [Traced.result_bind, Traced.result_lift, Model.bind_eq_ok]
  simp only [load_eq_ok, Container.partsOf_eq_ok]
  constructor
  · rintro ⟨a, ⟨bytes, hread, harchive⟩, hopens, hreads⟩
    exact ⟨bytes, hread, a, harchive, hopens, hreads⟩
  · rintro ⟨bytes, hread, a, harchive, hopens, hreads⟩
    exact ⟨a, ⟨bytes, hread, harchive⟩, hopens, hreads⟩

theorem unpack_of_readable (h : Readable root source a parts) (out : Path) :
    (unpack root source out).1 = (unpackParts out root parts).1 ∧
      (unpack root source out).2.result = (unpackParts out root parts).2 := by
  have hparts := exists_readable_iff.mp ⟨a, h⟩
  simp only [unpack, hparts, Traced.result_bind, Traced.result_notes, Traced.result_lift,
    Traced.result_note, Traced.result_pure, true_and]
  cases (unpackParts out root parts).2 <;> rfl

/-- What cannot be read changes nothing. -/
theorem unpack_of_not_readable (h : ¬ ∃ a parts, Readable root source a parts) (out : Path) :
    (unpack root source out).1 = root ∧
      ∃ fault, (unpack root source out).2.result = .error fault := by
  cases hresult : (Traced.lift (load root source) >>= Container.partsOf .file).result with
  | ok parts =>
      obtain ⟨a, hreadable⟩ := exists_readable_iff.mpr hresult
      exact absurd ⟨a, parts, hreadable⟩ h
  | error fault =>
      simp only [unpack, hresult, true_and]
      exact ⟨fault, rfl⟩

/-- Where the file of a part is, if its name is accepted. -/
def place (out : Path) (p : Part) : Path := out ++ ordinary p.1

/-- A part is unpacked: its name is accepted, means a file and is short enough, and the file is
    written. -/
structure Unpacked (out : Path) (root : Node) (p : Part) (root' : Node) : Prop where
  contained : Contained p.1.toList
  isFile : endsInFolder p.1.toList = false
  short : isShort (pathText out ++ "/" ++ p.1) = true
  written : Written p.2 root (place out p) root'

theorem unpackPart_eq_ok : unpackPart out root p = .ok (root', path) ↔
    Unpacked out root p root' ∧ path = place out p := by
  by_cases hcontained : Contained p.1.toList
  · rw [unpackPart, target_of_contained hcontained]
    simp only [bind, Except.bind]
    split
    · rename_i hrefused
      refine ⟨fun h => (nomatch h), ?_⟩
      rintro ⟨h, _⟩
      rw [h.isFile, h.short] at hrefused
      cases hrefused
    · rename_i hadmitted
      rw [Bool.not_eq_true, Bool.or_eq_false_iff, Bool.not_eq_false'] at hadmitted
      cases hwrite : root.write? p.2 (out ++ ordinary p.1) with
      | none =>
          refine ⟨fun h => (nomatch h), ?_⟩
          rintro ⟨h, _⟩
          have hsome := write?_eq_some.mpr h.written
          rw [place, hwrite] at hsome
          cases hsome
      | some written =>
          constructor
          · intro h
            cases h
            exact ⟨⟨hcontained, hadmitted.1, hadmitted.2, write?_eq_some.mp hwrite⟩, rfl⟩
          · rintro ⟨h, rfl⟩
            have hsome := write?_eq_some.mpr h.written
            rw [place, hwrite] at hsome
            cases hsome
            rfl
  · rw [unpackPart, target_of_not_contained hcontained]
    refine ⟨fun h => (nomatch h), ?_⟩
    rintro ⟨h, _⟩
    exact absurd h.contained hcontained

theorem unpackPart_of_not_contained (h : ¬ Contained p.1.toList) :
    unpackPart out root p = .error (.escapes p.1) := by
  rw [unpackPart, target_of_not_contained h]
  rfl

/-- Parts are unpacked one after the other. -/
inductive Unpacks (out : Path) : Node → List Part → Node → Prop
  | done (root : Node) : Unpacks out root [] root
  | part {root root' root'' : Node} {p : Part} {parts : List Part} :
      Unpacked out root p root' → Unpacks out root' parts root'' →
        Unpacks out root (p :: parts) root''

/-- The parts in front of others are unpacked before them. -/
theorem unpackParts_append (h : Unpacks out root before root') (after : List Part) :
    unpackParts out root (before ++ after) = ((unpackParts out root' after).1,
      (unpackParts out root' after).2.map (before.map (place out) ++ ·)) := by
  induction h with
  | done root =>
      rw [List.nil_append, List.map_nil]
      cases hafter : unpackParts out root after with
      | mk root' paths => cases paths <;> rfl
  | @part root root' root'' p parts hpart _ ih =>
      rw [List.cons_append, unpackParts, unpackPart_eq_ok.mpr ⟨hpart, rfl⟩]
      simp only [ih]
      cases (unpackParts out root'' after).2 <;> rfl

/-- What is unpacked before a part fails stays, and all of it if no part fails. -/
theorem exists_unpacks (out : Path) (root : Node) (parts : List Part) :
    ∃ before after, parts = before ++ after ∧
      Unpacks out root before (unpackParts out root parts).1 ∧
        ∀ paths, (unpackParts out root parts).2 = .ok paths →
          after = [] ∧ paths = before.map (place out) := by
  induction parts generalizing root with
  | nil =>
      refine ⟨[], [], rfl, .done root, ?_⟩
      intro paths h
      cases h
      exact ⟨rfl, rfl⟩
  | cons p parts ih =>
      rw [unpackParts]
      cases hpart : unpackPart out root p with
      | error fault => exact ⟨[], p :: parts, rfl, .done root, fun paths h => (nomatch h)⟩
      | ok written =>
          obtain ⟨root', path⟩ := written
          obtain ⟨hunpacked, rfl⟩ := unpackPart_eq_ok.mp hpart
          obtain ⟨before, after, hparts, hbefore, hall⟩ := ih root'
          refine ⟨p :: before, after, congrArg (p :: ·) hparts, .part hunpacked hbefore, ?_⟩
          intro paths h
          simp only at h
          obtain ⟨more, hmore, rfl⟩ := Model.map_eq_ok.mp h
          obtain ⟨hafter, rfl⟩ := hall more hmore
          exact ⟨hafter, rfl⟩

theorem Unpacks.contained (h : Unpacks out root parts root') :
    ∀ p ∈ parts, Contained p.1.toList := by
  induction h with
  | done root => exact fun _ hnone => absurd hnone List.not_mem_nil
  | part hpart _ ih => exact List.forall_mem_cons.mpr ⟨hpart.contained, ih⟩

/-- The bytes of the last part whose file is at a path. -/
def lastAt (out : Path) (parts : List Part) (q : Path) : Option (List UInt8) :=
  (parts.reverse.find? fun p => place out p == q).map Prod.snd

theorem lastAt_cons (out : Path) (p : Part) (parts : List Part) (q : Path) :
    lastAt out (p :: parts) q =
      (lastAt out parts q).or (if q = place out p then some p.2 else none) := by
  rw [lastAt, lastAt, List.reverse_cons, List.find?_append, Option.map_or, List.find?_singleton]
  by_cases hq : q = place out p
  · rw [if_pos hq, hq, beq_self_eq_true, if_pos rfl]
    rfl
  · rw [if_neg hq, if_neg (mt beq_iff_eq.mp (Ne.symm hq))]
    rfl

/-- Files change as far as parts are unpacked to them. -/
theorem Unpacks.read? (h : Unpacks out root parts root') (q : Path) :
    root'.read? q = (lastAt out parts q).or (root.read? q) := by
  induction h with
  | done root => rfl
  | @part root root' root'' p parts hpart _ ih =>
      rw [ih, hpart.written.read?, lastAt_cons, Option.or_assoc]
      congr 1
      split <;> rfl

theorem exists_of_lastAt {held : List UInt8} (h : lastAt out parts q = some held) :
    ∃ p ∈ parts, q = place out p ∧ p.2 = held := by
  obtain ⟨p, hfind, hheld⟩ := Option.map_eq_some_iff.mp h
  obtain ⟨hp, hq⟩ := Archive.find?_key_eq_some hfind
  exact ⟨p, List.mem_reverse.mp hp, hq.symm, hheld⟩

/-- An archive of parts can be unpacked, if the parts are within the limits and those of one name
    have the same bytes. -/
theorem readable_of_stores (hread : root.read? source = some bytes)
    (hstores : Archive.Stores .file bytes parts) (hcount : parts.length ≤ Limits.default.parts)
    (hbound : Limits.default.Bound (parts.map fun p => p.2.length))
    (hschema : schemaPart ∈ parts.map Prod.fst)
    (hfolder : ∀ p ∈ parts, Archive.isFolderName p.1 = false) (hone : Archive.OneContent parts) :
    ∃ a, Readable root source a parts := by
  obtain ⟨a, harchive, hholds⟩ := hstores
  exact ⟨a, ⟨bytes, hread, harchive⟩, Container.ofArchive_of_holds hholds hcount hschema,
    Container.readAll_of_oneContent hholds hfolder hbound hone⟩

theorem unpacks_of_ok {paths : List Path} (h : (unpackParts out root parts).2 = .ok paths) :
    Unpacks out root parts (unpackParts out root parts).1 ∧ paths = parts.map (place out) := by
  obtain ⟨before, after, hparts, hbefore, hall⟩ := exists_unpacks out root parts
  obtain ⟨hafter, hpaths⟩ := hall paths h
  rw [hafter, List.append_nil] at hparts
  rw [← hparts] at hbefore hpaths
  exact ⟨hbefore, hpaths⟩

theorem unpackParts_of_escape (h : Unpacks out root before root')
    (hbad : ¬ Contained bad.1.toList) (after : List Part) :
    unpackParts out root (before ++ bad :: after) = (root', .error (.escapes bad.1)) := by
  rw [unpackParts_append h, unpackParts, unpackPart_of_not_contained hbad]
  rfl

/-- Whatever unpacking changes is the file of a part whose name is accepted. -/
theorem exists_part_of_changed (h : (unpack root source out).1.read? q ≠ root.read? q) :
    ∃ a parts p, Readable root source a parts ∧ p ∈ parts ∧ Contained p.1.toList ∧
      q = place out p := by
  by_cases hreadable : ∃ a parts, Readable root source a parts
  · obtain ⟨a, parts, hreadable⟩ := hreadable
    obtain ⟨before, after, rfl, hbefore, _⟩ := exists_unpacks out root parts
    rw [(unpack_of_readable hreadable out).1, hbefore.read?] at h
    cases hlast : lastAt out before q with
    | none => exact absurd (by rw [hlast, Option.none_or]) h
    | some held =>
        obtain ⟨p, hp, hq, _⟩ := exists_of_lastAt hlast
        exact ⟨a, _, p, hreadable, List.mem_append_left _ hp, hbefore.contained p hp, hq⟩
  · exact absurd (by rw [(unpack_of_not_readable hreadable out).1]) h

/-- The paths that are returned are those of all parts, in order. -/
theorem paths_of_unpack {paths : List Path} (h : (unpack root source out).2.result = .ok paths) :
    ∃ a parts, Readable root source a parts ∧ (∀ p ∈ parts, Contained p.1.toList) ∧
      paths = parts.map (place out) := by
  by_cases hreadable : ∃ a parts, Readable root source a parts
  · obtain ⟨a, parts, hreadable⟩ := hreadable
    rw [(unpack_of_readable hreadable out).2] at h
    obtain ⟨hall, hpaths⟩ := unpacks_of_ok h
    exact ⟨a, parts, hreadable, hall.contained, hpaths⟩
  · obtain ⟨_, fault, hfault⟩ := unpack_of_not_readable hreadable out
    rw [hfault] at h
    cases h

/-- Names are accepted by their text alone, and whatever is written is below the folder, at the
    names in the name of a part. The first part whose name is not accepted is named as the fault,
    and the files of the parts before it are written, and no others. -/
theorem unpack_stays_below (root : Node) (source out : Path) :
    (∀ name, (∃ path, target name = .ok path) ↔
      name.toList.head? ≠ some '/' ∧ ['.', '.'] ∉ segments name.toList) ∧
    (∀ q, (unpack root source out).1.read? q ≠ root.read? q →
      ∃ a parts p, Readable root source a parts ∧ p ∈ parts ∧ Contained p.1.toList ∧
        q = out ++ ordinary p.1 ∧
          ((∀ n ∈ out, Plain n) → resolve [] (pathText out ++ "/" ++ p.1).toList = q)) ∧
    (∀ paths, (unpack root source out).2.result = .ok paths →
      ∃ a parts, Readable root source a parts ∧ (∀ p ∈ parts, Contained p.1.toList) ∧
        paths = parts.map fun p => out ++ ordinary p.1) ∧
    ∀ a before bad after paths, Readable root source a (before ++ bad :: after) →
      (unpackParts out root before).2 = .ok paths → ¬ Contained bad.1.toList →
        a.files.map Archive.Entry.name = (before ++ bad :: after).map Prod.fst ∧
        (∀ p ∈ before, Contained p.1.toList) ∧
        (unpack root source out).2.result = .error (.escapes bad.1) ∧
        (ContainerFault.escapes bad.1).code = "PBIT_CONTAINER_002" ∧
        ∀ q, (unpack root source out).1.read? q = (lastAt out before q).or (root.read? q) := by
  refine ⟨exists_target_iff, ?changed, fun paths => paths_of_unpack, ?escape⟩
  case changed =>
    intro q hq
    obtain ⟨a, parts, p, hreadable, hp, hcontained, hplace⟩ := exists_part_of_changed hq
    refine ⟨a, parts, p, hreadable, hp, hcontained, hplace, ?_⟩
    intro hout
    exact (resolve_join hout hcontained).trans hplace.symm
  case escape =>
    intro a before bad after paths hreadable hwritten hbad
    obtain ⟨hbefore, _⟩ := unpacks_of_ok hwritten
    obtain ⟨hroot, hresult⟩ := unpack_of_readable hreadable out
    rw [unpackParts_of_escape hbefore hbad] at hroot hresult
    refine ⟨(Container.names_of_readAll hreadable.reads).symm, hbefore.contained, hresult, rfl, ?_⟩
    intro q
    rw [hroot, hbefore.read?]

/-- Parts the second of which leads out of the folder. -/
def escaping : List Part :=
  [(schemaPart, [0x7b, 0x7d]), ("a/../../evil", [0x78]), ("late", [0x79])]

def escapingDisk : Node := .folder [("t.pbit", .file (Archive.write escaping))]

theorem unpack_stays_below_escaping :
    (unpack escapingDisk ["t.pbit"] ["out"]).2.result = .error (.escapes "a/../../evil") ∧
      (unpack escapingDisk ["t.pbit"] ["out"]).1.read? ["out", schemaPart] = some [0x7b, 0x7d] ∧
        (unpack escapingDisk ["t.pbit"] ["out"]).1.read? ["out", "late"] = none := by
  have hfits : Archive.Fits escaping := by decide +kernel
  have hread : escapingDisk.read? ["t.pbit"] = some (Archive.write escaping) := rfl
  obtain ⟨a, hreadable⟩ := readable_of_stores hread (hfits.stores .file) (by decide)
    ⟨by decide, by decide⟩ (by decide) (by decide) (by decide)
  have hwritten : (unpackParts ["out"] escapingDisk [(schemaPart, [0x7b, 0x7d])]).2 =
      .ok [["out", schemaPart]] := rfl
  obtain ⟨_, _, hresult, _, hdisk⟩ := (unpack_stays_below escapingDisk ["t.pbit"] ["out"]).2.2.2 a
    [(schemaPart, [0x7b, 0x7d])] ("a/../../evil", [0x78]) [("late", [0x79])] _ hreadable hwritten
    (by decide)
  refine ⟨hresult, ?_, ?_⟩
  · rw [hdisk]
    rfl
  · rw [hdisk]
    rfl

end Tabular.Disk
