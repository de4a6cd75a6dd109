/- What reading every file of an archive gives: each part, unless two parts share a name. -/
import Tabular.Proofs.Archive.Written
import Tabular.Proofs.Container.Limits
import Tabular.Proofs.Model.Field

namespace Tabular.Container
open Tabular.Archive (Part Entry Medium Stores Fits OneContent lastContents lastBytes isFolderName)
variable {a : Archive} {limits : Limits} {c : Container} {e : Entry} {es : List Entry} {p : Part}
  {names : List String} {bytes : List UInt8} {parts : List Part} {n : Nat} {medium : Medium}

/-- A part that is found under its name, and declared small enough to be read. -/
structure Found (a : Archive) (limits : Limits) (p : Part) (e : Entry) : Prop where
  find : a.find? p.1 = some e
  yields : e.Yields p.2
  small : e.size ≤ limits.partBytes

theorem Found.part_of_le (h : Found a limits p e)
    (hle : bytesAfter ⟨a, limits, n⟩ e.size ≤ limits.totalBytes) :
    part ⟨a, limits, n⟩ p.1 = .ok (e, p.2) :=
  part_eq_ok.mpr ⟨h.find, h.yields, h.small, hle⟩

theorem Found.part_of_lt (h : Found a limits p e)
    (hlt : limits.totalBytes < bytesAfter ⟨a, limits, n⟩ e.size) :
    part ⟨a, limits, n⟩ p.1 = .error (.totalTooLarge limits.totalBytes) := by
  obtain ⟨kept, hopen, _⟩ := h.yields
  have hsmall : ¬ limits.partBytes < e.size := Nat.not_lt.mpr h.small
  simp only [part, h.find, hopen, if_neg hsmall, if_pos hlt]

/-- Parts that are found are all read, unless they use up the limit together. -/
theorem readEach_found (h : List.Forall₂ (Found a limits) parts es) (hn : n ≤ limits.totalBytes) :
    (readEach ⟨a, limits, n⟩ (parts.map Prod.fst)).2.result =
      if bytesAfter ⟨a, limits, n⟩ (es.map Entry.size).sum ≤ limits.totalBytes then .ok parts
      else .error (.totalTooLarge limits.totalBytes) := by
  induction h generalizing n with
  | nil =>
      have hnone : bytesAfter ⟨a, limits, n⟩ 0 ≤ limits.totalBytes :=
        Nat.le_trans (Nat.min_le_left _ _) hn
      rw [List.map_nil, List.map_nil, List.sum_nil, if_pos hnone]
      rfl
  | @cons p e parts es hfound _ ih =>
      rw [List.map_cons, List.map_cons, List.sum_cons, readEach]
      by_cases hle : bytesAfter ⟨a, limits, n⟩ e.size ≤ limits.totalBytes
      · obtain ⟨hafter, hresult⟩ := read_of_ok (hfound.part_of_le hle)
        have hspend : spend ⟨a, limits, n⟩ e = ⟨a, limits, bytesAfter ⟨a, limits, n⟩ e.size⟩ := rfl
        have hsum : bytesAfter ⟨a, limits, bytesAfter ⟨a, limits, n⟩ e.size⟩
            (es.map Entry.size).sum =
              bytesAfter ⟨a, limits, n⟩ (e.size + (es.map Entry.size).sum) := by
          simp only [bytesAfter]
          omega
        simp only [hresult, hafter, hspend, ih hle, hsum]
        split <;> rfl
      · have hlt := Nat.lt_of_not_le hle
        have hmono : bytesAfter ⟨a, limits, n⟩ e.size ≤
            bytesAfter ⟨a, limits, n⟩ (e.size + (es.map Entry.size).sum) := by
          simp only [bytesAfter]
          omega
        rw [read_of_error (hfound.part_of_lt hlt),
          if_neg (Nat.not_le_of_lt (Nat.lt_of_lt_of_le hlt hmono))]
        rfl

theorem namesOf_of_open (h : ∀ e ∈ es, ∃ kept, e.open = .ok kept) :
    namesOf es = .ok ((es.filter fun e => !isFolderName e.name).map Entry.name) := by
  induction es with
  | nil => rfl
  | cons e es ih =>
      obtain ⟨⟨kept, hopen⟩, hmore⟩ := List.forall_mem_cons.mp h
      rw [namesOf, hopen, ih hmore, List.filter_cons]
      cases isFolderName e.name <;> rfl

/-- The names of files are known once every entry opens. -/
theorem namesOf_eq_ok (h : namesOf es = .ok names) :
    names = (es.filter fun e => !isFolderName e.name).map Entry.name := by
  have hopens : ∀ e ∈ es, ∃ kept, e.open = .ok kept := by
    induction es generalizing names with
    | nil => exact fun _ hnone => absurd hnone List.not_mem_nil
    | cons e es ih =>
        rw [namesOf] at h
        cases hopen : e.open with
        | error reason =>
            rw [hopen] at h
            cases h
        | ok kept =>
            cases hmore : namesOf es with
            | error fault =>
                rw [hopen, hmore] at h
                cases h
            | ok more => exact List.forall_mem_cons.mpr ⟨⟨kept, hopen⟩, ih hmore⟩
  rw [namesOf_of_open hopens, Except.ok.injEq] at h
  exact h.symm

/-- Whatever is read is in the order of the archive. -/
theorem names_of_readAll (h : c.readAll.2.result = .ok parts) :
    parts.map Prod.fst = c.archive.files.map Entry.name := by
  rw [readAll] at h
  cases hnames : c.names with
  | error fault =>
      rw [hnames] at h
      cases h
  | ok names =>
      rw [hnames] at h
      rw [(obtains_of_readEach h).1, namesOf_eq_ok hnames]
      rfl

theorem ofBytes_eq_ok : (ofBytes limits medium bytes).result = .ok c ↔
    ∃ a, Archive.ofBytes medium bytes = .ok a ∧ ofArchive limits a = .ok c := by
  simp only [ofBytes, Traced.result_bind, Traced.result_lift, Traced.result_note,
    Traced.result_pure, Model.bind_eq_ok, Model.mapError_eq_ok, Except.ok.injEq, exists_const,
    true_and, exists_eq_right]

/-- An archive that holds some parts is opened, if there are not too many and the model is one. -/
theorem ofArchive_of_holds (h : List.Forall₂ Entry.Holds a.entries parts)
    (hcount : parts.length ≤ limits.parts) (hschema : schemaPart ∈ parts.map Prod.fst) :
    ofArchive limits a = .ok ⟨a, limits, 0⟩ := by
  obtain ⟨p, hp, hname⟩ := List.mem_map.mp hschema
  obtain ⟨e, hfind, he⟩ := Archive.find?_holds h hp
  obtain ⟨kept, hopen, _⟩ := he.yields
  rw [hname] at hfind
  refine ofArchive_eq_ok.mpr ⟨h.length_eq ▸ hcount, ?_, rfl⟩
  simp only [hasSchema, hfind, hopen, Except.toOption, Option.isSome_some]

/-- Files that are found under their names are all read, unless they use up the limit together. -/
theorem readAll_found (hopens : ∀ e ∈ a.entries, ∃ kept, e.open = .ok kept)
    (hnames : a.files.map Entry.name = parts.map Prod.fst)
    (h : List.Forall₂ (Found a limits) parts es) :
    (readAll ⟨a, limits, 0⟩).2.result =
      if bytesAfter ⟨a, limits, 0⟩ (es.map Entry.size).sum ≤ limits.totalBytes then .ok parts
      else .error (.totalTooLarge limits.totalBytes) := by
  have hall : Container.names ⟨a, limits, 0⟩ = .ok (parts.map Prod.fst) := by
    rw [names, namesOf_of_open hopens, ← hnames]
    rfl
  simp only [readAll, hall]
  exact readEach_found h (Nat.zero_le _)

theorem opens_of_holds (h : List.Forall₂ Entry.Holds es parts) :
    ∀ e ∈ es, ∃ kept, e.open = .ok kept := by
  induction h with
  | nil => exact fun _ hnone => absurd hnone List.not_mem_nil
  | cons he _ ih =>
      obtain ⟨kept, hopen, _⟩ := he.yields
      exact List.forall_mem_cons.mpr ⟨⟨kept, hopen⟩, ih⟩

theorem names_of_holds (h : List.Forall₂ Entry.Holds es parts) :
    es.map Entry.name = parts.map Prod.fst :=
  Archive.map_eq_of_rel (fun _ _ he => he.name) h

theorem files_of_holds (h : List.Forall₂ Entry.Holds a.entries parts)
    (hfolder : ∀ p ∈ parts, isFolderName p.1 = false) : a.files = a.entries := by
  refine List.filter_eq_self.mpr ?_
  intro e he
  have hname : e.name ∈ parts.map Prod.fst := names_of_holds h ▸ List.mem_map_of_mem he
  obtain ⟨p, hp, hname⟩ := List.mem_map.mp hname
  rw [← hname, hfolder p hp]
  rfl

/-- The bytes of parts together. -/
def totalLength (parts : List Part) : Nat := (parts.map fun p => p.2.length).sum

theorem exists_found (h : ∀ p ∈ parts, ∃ e, Found a limits p e ∧ e.size = p.2.length) :
    ∃ es, List.Forall₂ (Found a limits) parts es ∧
      (es.map Entry.size).sum = totalLength parts := by
  induction parts with
  | nil => exact ⟨[], .nil, rfl⟩
  | cons p parts ih =>
      obtain ⟨⟨e, he, hsize⟩, hmore⟩ := List.forall_mem_cons.mp h
      obtain ⟨es, hes, hsum⟩ := ih hmore
      refine ⟨e :: es, .cons he hes, ?_⟩
      rw [List.map_cons, List.sum_cons, hsize, hsum]
      rfl

/-- Each name is read with the bytes of the last part of that name. -/
theorem readAll_holds (h : List.Forall₂ Entry.Holds a.entries parts)
    (hfolder : ∀ p ∈ parts, isFolderName p.1 = false)
    (hsmall : ∀ p ∈ parts, p.2.length ≤ limits.partBytes) :
    (readAll ⟨a, limits, 0⟩).2.result =
      if min (totalLength (lastContents parts)) byteCountMax ≤ limits.totalBytes then
        .ok (lastContents parts)
      else .error (.totalTooLarge limits.totalBytes) := by
  have hnames : (lastContents parts).map Prod.fst = parts.map Prod.fst := by
    rw [lastContents, List.map_map]
    rfl
  have hlast : ∀ p ∈ lastContents parts, ∃ e, Found a limits p e ∧ e.size = p.2.length := by
    refine List.forall_mem_map.mpr ?_
    intro p hp
    obtain ⟨e, hfind, he⟩ := Archive.find?_holds h hp
    have hsize := he.size
    exact ⟨e, ⟨hfind, he.yields, hsize ▸ hsmall _ (Archive.lastBytes_mem hp)⟩, hsize⟩
  obtain ⟨es, hes, hsum⟩ := exists_found hlast
  have hfiles : a.files.map Entry.name = (lastContents parts).map Prod.fst := by
    rw [files_of_holds h hfolder, names_of_holds h, hnames]
  rw [readAll_found (opens_of_holds h) hfiles hes, hsum, bytesAfter, Nat.zero_add]

/-- Parts within the limits are read as they are, if those of one name have the same bytes. -/
theorem readAll_of_oneContent (h : List.Forall₂ Entry.Holds a.entries parts)
    (hfolder : ∀ p ∈ parts, isFolderName p.1 = false)
    (hbound : limits.Bound (parts.map fun p => p.2.length)) (hone : OneContent parts) :
    (readAll ⟨a, limits, 0⟩).2.result = .ok parts := by
  have htotal : min (totalLength parts) byteCountMax ≤ limits.totalBytes :=
    Nat.le_trans (Nat.min_le_left _ _) hbound.total
  rw [readAll_holds h hfolder (List.forall_mem_map.mp hbound.part),
    Archive.lastContents_eq_iff.mpr hone, if_pos htotal]

theorem partsOf_eq_ok : (partsOf medium bytes).result = .ok parts ↔
    ∃ a, Archive.ofBytes medium bytes = .ok a ∧
      ofArchive .default a = .ok ⟨a, .default, 0⟩ ∧
        (readAll ⟨a, .default, 0⟩).2.result = .ok parts := by
  rw [partsOf, Traced.result_bind, Model.bind_eq_ok]
  simp only [ofBytes_eq_ok]
  constructor
  · rintro ⟨c, ⟨a, hbytes, hopen⟩, hread⟩
    obtain ⟨_, _, rfl⟩ := ofArchive_eq_ok.mp hopen
    exact ⟨a, hbytes, hopen, hread⟩
  · rintro ⟨a, hbytes, hopen, hread⟩
    exact ⟨_, ⟨a, hbytes, hopen⟩, hread⟩

/-- An archive that holds some parts gives them back exactly when parts of one name have the same
    bytes. Otherwise the last of them is read for each, within the limits. The archive that parts
    are written into holds them, if they fit. -/
theorem readAll_stored_iff (hcount : parts.length ≤ limits.parts)
    (hbound : limits.Bound (parts.map fun p => p.2.length))
    (hschema : schemaPart ∈ parts.map Prod.fst)
    (hfolder : ∀ p ∈ parts, isFolderName p.1 = false) :
    (Fits parts → Stores medium (Archive.write parts) parts) ∧
      ∀ bytes, Stores medium bytes parts →
        ∃ c, (ofBytes limits medium bytes).result = .ok c ∧
          c.readAll.2.result =
            (if min (totalLength (lastContents parts)) byteCountMax ≤ limits.totalBytes then
              .ok (lastContents parts)
            else .error (.totalTooLarge limits.totalBytes)) ∧
          (c.readAll.2.result = .ok parts ↔ OneContent parts) := by
  refine ⟨fun hfits => hfits.stores medium, ?_⟩
  rintro bytes ⟨a, hbytes, hholds⟩
  have hopen := ofArchive_of_holds hholds hcount hschema
  have hread := readAll_holds hholds hfolder (List.forall_mem_map.mp hbound.part)
  refine ⟨_, ofBytes_eq_ok.mpr ⟨a, hbytes, hopen⟩, hread, ?_, ?_⟩
  · intro h
    rw [hread] at h
    split at h
    · exact Archive.lastContents_eq_iff.mp (Except.ok.inj h)
    · cases h
  · exact readAll_of_oneContent hholds hfolder hbound

/-- Parts two of which share a name. -/
def namesakes (bytes : List UInt8) : List Part :=
  [(schemaPart, [0x7b, 0x7d]), ("a", [0x31]), ("a", bytes)]

theorem readAll_stored_iff_namesakes : Fits (namesakes [0x31]) ∧
    ∃ c, (ofBytes .default .file (Archive.write (namesakes [0x31]))).result = .ok c ∧
      c.readAll.2.result = .ok (namesakes [0x31]) := by
  have hfits : Fits (namesakes [0x31]) := by decide +kernel
  obtain ⟨hstores, hread⟩ := @readAll_stored_iff .default (namesakes [0x31]) .file (by decide)
    ⟨by decide, by decide⟩ (by decide) (by decide)
  obtain ⟨c, hopen, _, hiff⟩ := hread _ (hstores hfits)
  exact ⟨hfits, c, hopen, hiff.mpr (by decide)⟩

/-- The first of two parts of one name is read as the second. -/
theorem readAll_namesakes : ∃ c,
    (ofBytes .default .file (Archive.write (namesakes [0x32]))).result = .ok c ∧
      c.readAll.2.result = .ok [(schemaPart, [0x7b, 0x7d]), ("a", [0x32]), ("a", [0x32])] ∧
      c.readAll.2.result ≠ .ok (namesakes [0x32]) := by
  have hfits : Fits (namesakes [0x32]) := by decide +kernel
  obtain ⟨a, hbytes, hholds⟩ := hfits.stores .file
  have hopen := @ofArchive_of_holds a .default _ hholds (by decide) (by decide)
  have hread := @readAll_holds a .default _ hholds (by decide) (by decide)
  have hlast : lastContents (namesakes [0x32]) =
      [(schemaPart, [0x7b, 0x7d]), ("a", [0x32]), ("a", [0x32])] := by decide
  rw [hlast] at hread
  refine ⟨_, ofBytes_eq_ok.mpr ⟨a, hbytes, hopen⟩, hread, ?_⟩
  rw [hread]
  decide

end Tabular.Container
