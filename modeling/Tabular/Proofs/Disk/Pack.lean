/- Packing a folder that an archive has been unpacked into gives the same parts, in the order of
   their paths. -/
import Tabular.Proofs.Disk.Unpack
import Mathlib.Data.List.Induction

namespace Tabular.Disk
open Tabular.Archive (Part Entry)
variable {root root' root'' listed node : Node} {source out path q : Path} {p : Part}
  {parts sorted : List Part} {a : Archive} {bytes : List UInt8} {name : String}

/-- Parts that become one file each: their names are tidy and differ, and none of them is a folder
    on the way to another. -/
structure Separate (parts : List Part) : Prop where
  nodup : (parts.map Prod.fst).Nodup
  tidy : ∀ p ∈ parts, Tidy p.1
  apart : ∀ p ∈ parts, ∀ q ∈ parts, ordinary p.1 <+: ordinary q.1 → p.1 = q.1

/-- An empty folder on a disk that accepts the names of parts in it. -/
structure Receives (root : Node) (out : Path) (parts : List Part) : Prop where
  empty : root.get? out = some (.folder [])
  above : ∀ n ∈ out, isAllowed n = true
  below : ∀ p ∈ parts, ∀ n ∈ ordinary p.1, isAllowed n = true
  short : ∀ p ∈ parts, isShort (pathText out ++ "/" ++ p.1) = true

theorem Unpacks.snoc (h : Unpacks out root parts root') (hp : Unpacked out root' p root'') :
    Unpacks out root (parts ++ [p]) root'' := by
  induction h with
  | done root => exact .part hp (.done root'')
  | part hfirst _ ih => exact .part hfirst (ih hp)

theorem Unpacks.isFolder (h : Unpacks out root parts root') (hq : root'.IsFolder q) :
    root.IsFolder q ∨ ∃ p ∈ parts, q <+: place out p ∧ q ≠ place out p := by
  induction h with
  | done root => exact .inl hq
  | part hpart _ ih =>
      rcases ih hq with hbefore | ⟨p, hp, hbelow⟩
      · exact (hpart.written.isFolder hbefore).imp id fun hbelow =>
          ⟨_, List.mem_cons_self, hbelow⟩
      · exact .inr ⟨p, List.mem_cons_of_mem _ hp, hbelow⟩

theorem Unpacks.distinct (h : Unpacks out root parts root') (hroot : root.Distinct) :
    root'.Distinct := by
  induction h with
  | done root => exact hroot
  | part hpart _ ih => exact ih (hpart.written.distinct hroot)

theorem Unpacks.result (h : Unpacks out root parts root') :
    unpackParts out root parts = (root', .ok (parts.map (place out))) := by
  have happend := unpackParts_append h []
  rw [List.append_nil] at happend
  rw [happend, unpackParts]
  simp only [Except.map, List.append_nil]

/-- Nothing is in an empty folder. -/
theorem get?_below (hout : root.get? out = some (.folder [])) (hpath : path ≠ []) :
    root.get? (out ++ path) = none := by
  rw [get?_append, hout, Option.bind_some, get?_folder_nil hpath]

theorem read?_below (hout : root.get? out = some (.folder [])) (path : Path) :
    root.read? (out ++ path) = none := by
  rw [read?_append, hout, Option.bind_some]
  cases path <;> rfl

/-- What leads to a folder is a folder. -/
theorem read?_above (hout : root.IsFolder out) (h : q <+: out) : root.read? q = none := by
  obtain ⟨rest, rfl⟩ := h
  obtain ⟨children, hget⟩ := hout
  rw [get?_append] at hget
  obtain ⟨node, hnode, hrest⟩ := Option.bind_eq_some_iff.mp hget
  rw [Node.read?, hnode]
  cases node with
  | folder held => rfl
  | file held => cases rest <;> cases hrest

theorem read?_toward (hout : root.get? out = some (.folder [])) (h : q <+: out ++ path) :
    root.read? q = none := by
  rcases List.prefix_or_prefix_of_prefix h (List.prefix_append out path) with habove | ⟨below, rfl⟩
  · exact read?_above ⟨[], hout⟩ habove
  · exact read?_below hout below

theorem Separate.sublist {others : List Part} (h : Separate parts) (hsub : others.Sublist parts) :
    Separate others where
  nodup := h.nodup.sublist (hsub.map Prod.fst)
  tidy := fun p hp => h.tidy p (hsub.subset hp)
  apart := fun p hp q hq => h.apart p (hsub.subset hp) q (hsub.subset hq)

theorem Receives.sublist {others : List Part} (h : Receives root out parts)
    (hsub : others.Sublist parts) : Receives root out others where
  empty := h.empty
  above := h.above
  below := fun p hp => h.below p (hsub.subset hp)
  short := fun p hp => h.short p (hsub.subset hp)

/-- Separate parts are all unpacked into an empty folder. What has been unpacked is never in the way
    of what follows. -/
theorem exists_unpacks_all (hseparate : Separate parts) (hreceives : Receives root out parts) :
    ∃ root', Unpacks out root parts root' := by
  induction parts using List.reverseRecOn with
  | nil => exact ⟨root, .done root⟩
  | append_singleton parts p ih =>
      have hsub := List.sublist_append_left parts [p]
      have hp : p ∈ parts ++ [p] := List.mem_append_right _ List.mem_cons_self
      have hplace : ∀ r ∈ parts, ¬ place out r <+: place out p ∧ ¬ place out p <+: place out r := by
        intro r hr
        have hr' := List.mem_append_left [p] hr
        have hne : r.1 ≠ p.1 := by
          have hnodup := hseparate.nodup
          rw [List.map_append, List.nodup_append] at hnodup
          exact hnodup.2.2 _ (List.mem_map_of_mem hr) _ List.mem_cons_self
        rw [place, place, List.prefix_append_right_inj, List.prefix_append_right_inj]
        exact ⟨mt (hseparate.apart r hr' p hp) hne, mt (hseparate.apart p hp r hr') (Ne.symm hne)⟩
      obtain ⟨root', hbefore⟩ := ih (hseparate.sublist hsub) (hreceives.sublist hsub)
      have hallowed : ∀ n ∈ place out p, isAllowed n = true :=
        List.forall_mem_append.mpr ⟨hreceives.above, hreceives.below p hp⟩
      have hfile : ∀ q, q <+: place out p → q ≠ place out p → root'.read? q = none := by
        intro q htoward _
        rw [hbefore.read?, read?_toward hreceives.empty htoward, Option.or_none]
        cases hlast : lastAt out parts q with
        | none => rfl
        | some held =>
            obtain ⟨r, hr, rfl, _⟩ := exists_of_lastAt hlast
            exact absurd htoward (hplace r hr).1
      have hfolder : ¬ root'.IsFolder (place out p) := by
        intro hfolder
        rcases hbefore.isFolder hfolder with ⟨children, hget⟩ | ⟨r, hr, htoward, _⟩
        · rw [place, get?_below hreceives.empty (hseparate.tidy p hp).ordinary_ne_nil] at hget
          cases hget
        · exact (hplace r hr).2 htoward
      obtain ⟨root'', hwritten⟩ := exists_written p.2 hallowed hfile hfolder
      have htidy := hseparate.tidy p hp
      exact ⟨root'', hbefore.snoc
        ⟨htidy.contained, htidy.endsInFolder, hreceives.short p hp, hwritten⟩⟩

theorem Separate.eq_of_ordinary (h : Separate parts) {p r : Part} (hp : p ∈ parts) (hr : r ∈ parts)
    (heq : ordinary p.1 = ordinary r.1) : p = r := by
  have hname := h.apart p hp r hr (heq ▸ List.prefix_refl _)
  exact List.inj_on_of_nodup_map h.nodup hp hr hname

theorem Separate.lastAt_eq (h : Separate parts) (hp : p ∈ parts) (out : Path) :
    lastAt out parts (place out p) = some p.2 := by
  obtain ⟨r, hfind⟩ :=
    @Archive.find?_key_of_mem Part Path _ _ (place out) p _ (List.mem_reverse.mpr hp)
  obtain ⟨hr, hplace⟩ := Archive.find?_key_eq_some hfind
  have hsame := h.eq_of_ordinary (List.mem_reverse.mp hr) hp (List.append_cancel_left hplace)
  rw [lastAt, hfind, hsame]
  rfl

/-- What can be read in the folder afterwards is what has been unpacked into it. -/
theorem read?_unpacked (hunpacks : Unpacks out root parts root') (hseparate : Separate parts)
    (hempty : root.get? out = some (.folder [])) :
    root'.read? (out ++ path) = some bytes ↔ ∃ p ∈ parts, ordinary p.1 = path ∧ p.2 = bytes := by
  rw [hunpacks.read?, read?_below hempty, Option.or_none]
  constructor
  · intro hlast
    obtain ⟨p, hp, hplace, hbytes⟩ := exists_of_lastAt hlast
    exact ⟨p, hp, (List.append_cancel_left hplace).symm, hbytes⟩
  · rintro ⟨p, hp, rfl, rfl⟩
    exact hseparate.lastAt_eq hp out

theorem Node.Distinct.below (h : root.Distinct) (hnode : root.get? path = some node) :
    node.Distinct := by
  intro q children hget
  apply h (path ++ q) children
  rw [get?_append, hnode, Option.bind_some, hget]

/-- Whether parts stand in the order of their paths. -/
def InOrder (parts : List Part) : Prop :=
  parts.Pairwise fun p r => Precedes (ordinary p.1) (ordinary r.1)

instance (parts : List Part) : Decidable (InOrder parts) :=
  inferInstanceAs
    (Decidable (parts.Pairwise fun p r : Part => Precedes (ordinary p.1) (ordinary r.1)))

/-- The files of a folder are packed in the order of their paths, whichever way a disk lists it. -/
theorem partsOf_eq (hlisted : listed.Distinct) (hnode : listed.get? out = some node)
    (hread : ∀ path bytes, listed.read? (out ++ path) = some bytes ↔
      ∃ p ∈ sorted, ordinary p.1 = path ∧ p.2 = bytes)
    (htidy : ∀ p ∈ sorted, Tidy p.1)
    (hordered : InOrder sorted) : partsOf listed out = .ok sorted := by
  have hfiles : node.files = sorted.map fun p => (ordinary p.1, p.2) := by
    refine files_eq (hlisted.below hnode) ?_ (List.pairwise_map.mpr hordered)
    intro path bytes
    have hbelow := hread path bytes
    rw [read?_append, hnode, Option.bind_some] at hbelow
    rw [hbelow, List.mem_map]
    simp only [Prod.mk.injEq]
  have hback : (sorted.map fun p => ("/".intercalate (ordinary p.1), p.2)) = sorted := by
    have hid := @List.map_inj_left Part Part sorted
      (fun p => ("/".intercalate (ordinary p.1), p.2)) id
    rw [List.map_id] at hid
    exact hid.mpr fun p hp => congrArg (·, p.2) (htidy p hp).intercalate
  simp only [partsOf, hnode, hfiles, List.map_map]
  exact congrArg Except.ok hback

theorem written_of_create? (h : root.create? bytes path = some root') :
    Written bytes root path root' := by
  rw [Node.create?] at h
  split at h
  · exact write?_eq_some.mp h
  · cases h

theorem pack_eq {dest : Path} {packed : Node} (hparts : partsOf root out = .ok parts)
    (hcreate : root.create? (Archive.write parts) dest = some packed) :
    (pack root out dest).result = .ok packed := by
  simp only [pack, Traced.result_bind, Traced.result_lift, Traced.result_notes, Traced.result_note,
    Traced.result_pure, Model.bind_eq_ok, hparts, Except.ok.injEq, exists_eq_left', hcreate,
    Option.elim_some, exists_const, and_self]

/-- A template that can be unpacked: its archive opens, and each file in it keeps a part within the
    limits. -/
structure Intact (root : Node) (source : Path) (a : Archive) (parts : List Part) : Prop where
  archive : ∃ bytes, root.read? source = some bytes ∧ Archive.ofBytes .file bytes = .ok a
  opens : ∃ c, Container.ofArchive .default a = .ok c
  entries : ∀ e ∈ a.entries, ∃ kept, e.open = .ok kept
  files : List.Forall₂ Entry.Keeps a.files parts
  bound : Limits.default.Bound (a.files.map Entry.size)

theorem Intact.names (h : Intact root source a parts) :
    a.files.map Entry.name = parts.map Prod.fst :=
  Archive.map_eq_of_rel (fun _ _ he => he.name) h.files

/-- Parts of different names are read from the entries that keep them. -/
theorem Intact.readable (h : Intact root source a parts) (hnodup : (parts.map Prod.fst).Nodup) :
    Readable root source a parts := by
  obtain ⟨c, hopens⟩ := h.opens
  obtain ⟨_, _, rfl⟩ := Container.ofArchive_eq_ok.mp hopens
  have hnames := h.names
  have hfound : List.Forall₂ (Container.Found a Limits.default) parts a.files := by
    have hmem : List.Forall₂ (fun e p => e ∈ a.files ∧ e.Keeps p) a.files parts :=
      (List.forall₂_and_left _ _).mpr ⟨fun _ he => he, h.files⟩
    refine List.Forall₂.flip (hmem.imp ?_)
    rintro e p ⟨he, hkeeps⟩
    rw [← hnames] at hnodup
    have hfind := Archive.find?_of_nodup hnodup he
    rw [hkeeps.name] at hfind
    exact ⟨hfind, hkeeps.yields, h.bound.part _ (List.mem_map_of_mem he)⟩
  have htotal : min (a.files.map Entry.size).sum Container.byteCountMax ≤
      Limits.default.totalBytes := Nat.le_trans (Nat.min_le_left _ _) h.bound.total
  refine ⟨h.archive, hopens, ?_⟩
  rw [Container.readAll_found h.entries hnames hfound, Container.bytesAfter, Nat.zero_add,
    if_pos htotal]

/-- An archive that parts are stored in is intact, if the parts are within the limits. -/
theorem intact_of_stores (hread : root.read? source = some bytes)
    (hstores : Archive.Stores .file bytes parts) (hcount : parts.length ≤ Limits.default.parts)
    (hbound : Limits.default.Bound (parts.map fun p => p.2.length))
    (hschema : schemaPart ∈ parts.map Prod.fst)
    (hfolder : ∀ p ∈ parts, Archive.isFolderName p.1 = false) :
    ∃ a, Intact root source a parts := by
  obtain ⟨a, harchive, hholds⟩ := hstores
  have hfiles := Container.files_of_holds hholds hfolder
  have hsizes : a.entries.map Entry.size = parts.map fun p => p.2.length :=
    Archive.map_eq_of_rel (fun _ _ he => he.size) hholds
  refine ⟨a, ⟨bytes, hread, harchive⟩, ⟨_, Container.ofArchive_of_holds hholds hcount hschema⟩,
    Container.opens_of_holds hholds, ?_, ?_⟩
  · rw [hfiles]
    exact hholds.imp fun _ _ he => he.toKeeps
  · rw [hfiles, hsizes]
    exact hbound

/-- There is a part, since there is a model. -/
theorem Intact.ne_nil (h : Intact root source a parts) : parts ≠ [] := by
  obtain ⟨c, hopens⟩ := h.opens
  obtain ⟨_, hschema, _⟩ := Container.ofArchive_eq_ok.mp hopens
  rintro rfl
  have hfiles := List.forall₂_nil_right_iff.mp h.files
  cases hfind : a.find? schemaPart with
  | none =>
      rw [Container.hasSchema, hfind] at hschema
      cases hschema
  | some e =>
      obtain ⟨he, hname⟩ := Archive.find?_key_eq_some hfind
      have hfile : e ∈ a.files := by
        refine List.mem_filter.mpr ⟨List.mem_reverse.mp he, ?_⟩
        rw [hname]
        decide
      rw [hfiles] at hfile
      cases hfile

theorem exists_inOrder (hseparate : Separate parts) :
    ∃ sorted : List Part, sorted.Perm parts ∧ InOrder sorted := by
  have hinj : Function.Injective (List.map Text.Utf8.encode) :=
    List.map_injective_iff.mpr fun _ _ => encode_inj
  have hkeys : (parts.map fun p => (ordinary p.1).map Text.Utf8.encode).Nodup :=
    List.Nodup.map_on (fun _ hp _ hr heq => hseparate.eq_of_ordinary hp hr (hinj heq))
      hseparate.nodup.of_map
  exact ⟨_, List.mergeSort_perm parts _, pairwise_sorted _ hkeys⟩

/-- A template is unpacked into an empty folder, and packing the folder gives its parts, in the
    order of their paths: whichever way they were ordered in the template, and whichever way the
    disk lists the folder. -/
theorem pack_unpack (hintact : Intact root source a parts) (hseparate : Separate parts)
    (hreceives : Receives root out parts) (hroot : root.Distinct) :
    (unpack root source out).2.result = .ok (parts.map fun p => out ++ ordinary p.1) ∧
    (unpack root source out).1.Distinct ∧
    (∃ sorted : List Part, sorted.Perm parts ∧ InOrder sorted) ∧
    ∀ sorted listed, sorted.Perm parts → InOrder sorted →
      listed.Distinct → (∀ q, listed.read? q = (unpack root source out).1.read? q) →
        partsOf listed out = .ok sorted ∧
        ∀ dest packed, listed.create? (Archive.write sorted) dest = some packed →
          (pack listed out dest).result = .ok packed ∧
          packed.read? dest = some (Archive.write sorted) ∧
          (Archive.Fits sorted → Archive.Stores .file (Archive.write sorted) sorted) := by
  obtain ⟨root', hunpacks⟩ := exists_unpacks_all hseparate hreceives
  obtain ⟨hdisk, hresult⟩ := unpack_of_readable (hintact.readable hseparate.nodup) out
  rw [hunpacks.result] at hdisk hresult
  refine ⟨hresult, hdisk ▸ hunpacks.distinct hroot, exists_inOrder hseparate, ?_⟩
  intro sorted listed hperm hordered hlisted hread
  rw [hdisk] at hread
  have hbelow : ∀ path bytes, listed.read? (out ++ path) = some bytes ↔
      ∃ p ∈ sorted, ordinary p.1 = path ∧ p.2 = bytes := by
    intro path bytes
    rw [hread, read?_unpacked hunpacks hseparate hreceives.empty]
    simp only [hperm.mem_iff]
  have hnode : ∃ node, listed.get? out = some node := by
    obtain ⟨p, hp⟩ := List.exists_mem_of_ne_nil _ hintact.ne_nil
    have hsome := (hbelow _ _).mpr ⟨p, hperm.mem_iff.mpr hp, rfl, rfl⟩
    rw [read?_append] at hsome
    obtain ⟨node, hnode, _⟩ := Option.bind_eq_some_iff.mp hsome
    exact ⟨node, hnode⟩
  obtain ⟨node, hnode⟩ := hnode
  have htidy : ∀ p ∈ sorted, Tidy p.1 := fun p hp => hseparate.tidy p (hperm.mem_iff.mp hp)
  have hparts := partsOf_eq hlisted hnode hbelow htidy hordered
  refine ⟨hparts, ?_⟩
  intro dest packed hcreate
  have hwritten := (written_of_create? hcreate).read? dest
  rw [if_pos rfl] at hwritten
  exact ⟨pack_eq hparts hcreate, hwritten, fun hfits => hfits.stores .file⟩

/-- Parts out of order; a name with a slash comes before one with a hyphen in its place. -/
def shuffled : List Part :=
  [("a-b", [0x32]), ("a/x", [0x31]), (schemaPart, [0x7b, 0x7d]), ("Report/Layout", [0x7b, 0x7d])]

def shuffledDisk : Node :=
  .folder [("t.pbit", .file (Archive.write shuffled)), ("out", .folder [])]

theorem pack_unpack_shuffled :
    partsOf (unpack shuffledDisk ["t.pbit"] ["out"]).1 ["out"] =
      .ok [(schemaPart, [0x7b, 0x7d]), ("Report/Layout", [0x7b, 0x7d]), ("a/x", [0x31]),
        ("a-b", [0x32])] := by
  have hfits : Archive.Fits shuffled := by decide +kernel
  have hread : shuffledDisk.read? ["t.pbit"] = some (Archive.write shuffled) := rfl
  obtain ⟨a, hintact⟩ := intact_of_stores hread (hfits.stores .file) (by decide)
    ⟨by decide, by decide⟩ (by decide) (by decide)
  have hempty : (Node.folder []).Distinct :=
    distinct_folder List.nodup_nil fun _ hnone => absurd hnone List.not_mem_nil
  have hroot : shuffledDisk.Distinct := by
    refine distinct_folder (by decide) ?_
    exact List.forall_mem_cons.mpr ⟨distinct_file _, List.forall_mem_singleton.mpr hempty⟩
  have hseparate : Separate shuffled := ⟨by decide, by decide, by decide⟩
  have hreceives : Receives shuffledDisk ["out"] shuffled := ⟨rfl, by decide, by decide, by decide⟩
  obtain ⟨_, hdistinct, _, hpacks⟩ := pack_unpack hintact hseparate hreceives hroot
  have hpacked := hpacks [(schemaPart, [0x7b, 0x7d]), ("Report/Layout", [0x7b, 0x7d]),
    ("a/x", [0x31]), ("a-b", [0x32])] _ (by decide) (by decide) hdistinct fun _ => rfl
  exact hpacked.1

end Tabular.Disk
