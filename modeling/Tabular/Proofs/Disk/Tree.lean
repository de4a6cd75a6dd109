/- What writing a file changes on a disk, and in which order the files of a folder are listed. -/
import Tabular.Disk.Tree
import Tabular.Proofs.Text.Utf8
import Mathlib.Data.List.Sort

namespace Tabular.Disk
variable {root root' node : Node} {children : Children} {name n : String} {path q : Path}
  {bytes old : List UInt8}

theorem lookup_put (name : String) (node : Node) (children : Children) (n : String) :
    (Children.put name node children).lookup n =
      if n = name then some node else children.lookup n := by
  induction children with
  | nil =>
      rw [Children.put, List.lookup_cons]
      by_cases hn : n = name
      · rw [hn, beq_self_eq_true, if_pos rfl]
      · rw [beq_eq_false_iff_ne.mpr hn, if_neg hn]
  | cons c children ih =>
      obtain ⟨first, held⟩ := c
      rw [Children.put]
      by_cases hfirst : first = name
      · rw [if_pos hfirst, hfirst, List.lookup_cons, List.lookup_cons]
        by_cases hn : n = name
        · rw [hn, beq_self_eq_true, if_pos rfl]
        · rw [beq_eq_false_iff_ne.mpr hn, if_neg hn]
      · rw [if_neg hfirst, List.lookup_cons, List.lookup_cons, ih]
        by_cases hn : n = first
        · simp only [hn, beq_self_eq_true, if_neg hfirst]
        · simp only [beq_eq_false_iff_ne.mpr hn]

theorem mem_keys_put (h : n ∈ (Children.put name node children).map Prod.fst) :
    n = name ∨ n ∈ children.map Prod.fst := by
  induction children with
  | nil => exact .inl (List.mem_singleton.mp h)
  | cons c children ih =>
      obtain ⟨first, held⟩ := c
      rw [Children.put] at h
      split at h
      · exact .inr h
      · rcases List.mem_cons.mp h with hhead | hmore
        · exact .inr (hhead ▸ List.mem_cons_self)
        · exact (ih hmore).imp id (List.mem_cons_of_mem _)

theorem nodup_keys_put (h : (children.map Prod.fst).Nodup) :
    ((Children.put name node children).map Prod.fst).Nodup := by
  induction children with
  | nil => exact List.nodup_singleton name
  | cons c children ih =>
      obtain ⟨first, held⟩ := c
      obtain ⟨hfirst, hmore⟩ := List.nodup_cons.mp h
      rw [Children.put]
      split
      · exact h
      · rename_i hne
        refine List.nodup_cons.mpr ⟨?_, ih hmore⟩
        intro hmem
        rcases mem_keys_put hmem with hname | hmem
        · exact hne hname
        · exact hfirst hmem

theorem lookup_eq_some_iff (h : (children.map Prod.fst).Nodup) :
    children.lookup name = some node ↔ (name, node) ∈ children := by
  induction children with
  | nil => exact ⟨fun h => (nomatch h), fun h => absurd h List.not_mem_nil⟩
  | cons c children ih =>
      obtain ⟨first, held⟩ := c
      obtain ⟨hfirst, hmore⟩ := List.nodup_cons.mp h
      rw [List.lookup_cons, List.mem_cons, Prod.mk.injEq]
      by_cases hn : name = first
      · rw [hn, beq_self_eq_true]
        have hnot : (first, node) ∉ children := fun hmem =>
          hfirst (List.mem_map.mpr ⟨_, hmem, rfl⟩)
        simp only [hnot, or_false, true_and, Option.some.injEq]
        exact eq_comm
      · rw [beq_eq_false_iff_ne.mpr hn]
        simp only [hn, false_and, false_or]
        exact ih hmore

theorem get?_append (root : Node) (path q : Path) :
    root.get? (path ++ q) = (root.get? path).bind fun node => node.get? q := by
  induction path generalizing root with
  | nil => rfl
  | cons name path ih =>
      cases root with
      | file bytes => rfl
      | folder children =>
          rw [List.cons_append, Node.get?, Node.get?]
          cases children.lookup name with
          | none => rfl
          | some node => exact ih node

theorem read?_append (root : Node) (path q : Path) :
    root.read? (path ++ q) = (root.get? path).bind fun node => node.read? q := by
  rw [Node.read?, get?_append]
  cases root.get? path <;> rfl

theorem read?_cons (children : Children) (name : String) (path : Path) :
    (Node.folder children).read? (name :: path) =
      (children.lookup name).bind fun node => node.read? path := by
  rw [Node.read?, Node.get?]
  cases children.lookup name <;> rfl

/-- What writing to a path goes on in: what has the next name, or what is made there. -/
def Children.enter (children : Children) (name : String) (path : Path) : Node :=
  (children.lookup name).getD (if path.isEmpty then .file [] else .folder [])

theorem enter_cases (children : Children) (name : String) (path : Path) :
    (∃ node, children.lookup name = some node ∧ children.enter name path = node) ∨
      children.lookup name = none ∧
        (path = [] ∧ children.enter name path = .file [] ∨
          path ≠ [] ∧ children.enter name path = .folder []) := by
  rw [Children.enter]
  cases children.lookup name with
  | some node => exact .inl ⟨node, rfl, rfl⟩
  | none =>
      cases path with
      | nil => exact .inr ⟨rfl, .inl ⟨rfl, rfl⟩⟩
      | cons n path => exact .inr ⟨rfl, .inr ⟨List.cons_ne_nil _ _, rfl⟩⟩

theorem get?_folder_nil (hq : q ≠ []) : (Node.folder []).get? q = none := by
  obtain ⟨n, more, rfl⟩ := List.exists_cons_of_ne_nil hq
  rfl

theorem get?_file (hq : q ≠ []) : (Node.file bytes).get? q = none := by
  obtain ⟨n, more, rfl⟩ := List.exists_cons_of_ne_nil hq
  rfl

theorem read?_enter (h : q ≠ path) : (children.enter name path).read? q =
    (children.lookup name).bind fun node => node.read? q := by
  rcases enter_cases children name path with
    ⟨node, hlookup, henter⟩ | ⟨hlookup, ⟨hpath, henter⟩ | ⟨_, henter⟩⟩
  · rw [henter, hlookup, Option.bind_some]
  · rw [henter, hlookup, Node.read?, get?_file (hpath ▸ h)]
    rfl
  · rw [henter, hlookup, Node.read?]
    cases q <;> rfl

/-- A file is written at the end of a path, through the folders that the path names. -/
inductive Written (bytes : List UInt8) : Node → Path → Node → Prop
  | file (old : List UInt8) : Written bytes (.file old) [] (.file bytes)
  | folder {children : Children} {name : String} {path : Path} {node : Node} :
      isAllowed name = true → Written bytes (children.enter name path) path node →
      Written bytes (.folder children) (name :: path) (.folder (Children.put name node children))

theorem write?_folder (bytes : List UInt8) (children : Children) (name : String) (path : Path) :
    (Node.folder children).write? bytes (name :: path) = if isAllowed name then
      ((children.enter name path).write? bytes path).map fun node =>
        .folder (Children.put name node children) else none := by
  rw [Node.write?]
  cases isAllowed name <;> rfl

theorem write?_eq_some : root.write? bytes path = some root' ↔ Written bytes root path root' := by
  induction path generalizing root root' with
  | nil =>
      cases root with
      | file old =>
          rw [Node.write?, Option.some.injEq]
          constructor
          · rintro rfl
            exact .file old
          · rintro ⟨⟩
            rfl
      | folder children =>
          rw [Node.write?]
          exact ⟨fun h => (nomatch h), fun h => (nomatch h)⟩
  | cons name path ih =>
      cases root with
      | file old =>
          rw [Node.write?]
          exact ⟨fun h => (nomatch h), fun h => (nomatch h)⟩
      | folder children =>
          rw [write?_folder]
          constructor
          · intro h
            split at h
            · rename_i hallowed
              obtain ⟨node, hnode, rfl⟩ := Option.map_eq_some_iff.mp h
              exact .folder hallowed (ih.mp hnode)
            · cases h
          · rintro (_ | ⟨hallowed, hnode⟩)
            rw [if_pos hallowed, ih.mpr hnode, Option.map_some]

/-- Only the file that is written changes. -/
theorem Written.read? (h : Written bytes root path root') (q : Path) :
    root'.read? q = if q = path then some bytes else root.read? q := by
  induction h generalizing q with
  | file old =>
      split
      · rename_i hq
        rw [hq]
        rfl
      · rename_i hq
        rw [Node.read?, Node.read?, get?_file hq, get?_file hq]
  | @folder children name path node _ _ ih =>
      cases q with
      | nil => rfl
      | cons n q =>
          rw [read?_cons, lookup_put, read?_cons]
          by_cases hn : n = name
          · rw [if_pos hn, Option.bind_some, ih, hn]
            by_cases hq : q = path
            · rw [if_pos hq, hq, if_pos rfl]
            · have hne : name :: q ≠ name :: path := fun h => hq (List.cons.inj h).2
              rw [if_neg hq, if_neg hne, read?_enter hq]
          · have hne : n :: q ≠ name :: path := fun h => hn (List.cons.inj h).1
            rw [if_neg hn, if_neg hne]

/-- Whether there is a folder at a path. -/
def Node.IsFolder (root : Node) (path : Path) : Prop :=
  ∃ children, root.get? path = some (.folder children)

theorem isFolder_enter (h : (children.enter name path).IsFolder q) :
    (Node.folder children).IsFolder (name :: q) ∨ q <+: path ∧ q ≠ path := by
  obtain ⟨held, hget⟩ := h
  rcases enter_cases children name path with
    ⟨node, hlookup, henter⟩ | ⟨_, ⟨_, henter⟩ | ⟨hpath, henter⟩⟩
  · rw [henter] at hget
    refine .inl ⟨held, ?_⟩
    rw [Node.get?, hlookup, Option.bind_some, hget]
  · rw [henter] at hget
    cases q <;> cases hget
  · rw [henter] at hget
    cases q with
    | nil => exact .inr ⟨List.nil_prefix, Ne.symm hpath⟩
    | cons n q => cases hget

/-- Folders are only made on the way to a file. -/
theorem Written.isFolder (h : Written bytes root path root') (hq : root'.IsFolder q) :
    root.IsFolder q ∨ q <+: path ∧ q ≠ path := by
  induction h generalizing q with
  | file old =>
      obtain ⟨held, hget⟩ := hq
      cases q <;> cases hget
  | @folder children name path node _ _ ih =>
      cases q with
      | nil => exact .inl ⟨children, rfl⟩
      | cons n q =>
          obtain ⟨held, hget⟩ := hq
          rw [Node.get?, lookup_put] at hget
          by_cases hn : n = name
          · rw [if_pos hn] at hget
            rw [hn]
            have hbelow : q <+: path ∧ q ≠ path →
                name :: q <+: name :: path ∧ name :: q ≠ name :: path := by
              rintro ⟨htoward, hne⟩
              exact ⟨List.cons_prefix_cons.mpr ⟨rfl, htoward⟩, fun h => hne (List.cons.inj h).2⟩
            rcases ih ⟨held, hget⟩ with hentered | hinside
            · exact (isFolder_enter hentered).imp id hbelow
            · exact .inr (hbelow hinside)
          · rw [if_neg hn] at hget
            exact .inl ⟨held, hget⟩

/-- Whether no folder has two things of one name. -/
def Node.Distinct (root : Node) : Prop :=
  ∀ path children, root.get? path = some (.folder children) → (children.map Prod.fst).Nodup

theorem Node.Distinct.keys (h : (Node.folder children).Distinct) :
    (children.map Prod.fst).Nodup := h [] children rfl

theorem Node.Distinct.child (h : (Node.folder children).Distinct)
    (hlookup : children.lookup name = some node) : node.Distinct := by
  intro path held hget
  apply h (name :: path) held
  rw [Node.get?, hlookup, Option.bind_some, hget]

theorem distinct_file (bytes : List UInt8) : (Node.file bytes).Distinct := by
  intro path held hget
  cases path <;> cases hget

theorem distinct_folder (hkeys : (children.map Prod.fst).Nodup)
    (hchildren : ∀ c ∈ children, c.2.Distinct) : (Node.folder children).Distinct := by
  intro path held hget
  cases path with
  | nil =>
      cases hget
      exact hkeys
  | cons name path =>
      obtain ⟨node, hlookup, hbelow⟩ := Option.bind_eq_some_iff.mp hget
      exact hchildren _ ((lookup_eq_some_iff hkeys).mp hlookup) path held hbelow

theorem distinct_enter (h : (Node.folder children).Distinct) :
    (children.enter name path).Distinct := by
  rcases enter_cases children name path with
    ⟨node, hlookup, henter⟩ | ⟨_, ⟨_, henter⟩ | ⟨_, henter⟩⟩
  · rw [henter]
    exact h.child hlookup
  · rw [henter]
    exact distinct_file []
  · rw [henter]
    exact distinct_folder List.nodup_nil fun _ hnone => absurd hnone List.not_mem_nil

theorem Written.distinct (h : Written bytes root path root') (hroot : root.Distinct) :
    root'.Distinct := by
  induction h with
  | file old => exact distinct_file bytes
  | @folder children name path node _ _ ih =>
      intro q held hget
      cases q with
      | nil =>
          cases hget
          exact nodup_keys_put hroot.keys
      | cons n q =>
          rw [Node.get?, lookup_put] at hget
          by_cases hn : n = name
          · rw [if_pos hn] at hget
            exact ih (distinct_enter hroot) q held hget
          · rw [if_neg hn] at hget
            exact hroot (n :: q) held hget

/-- A file is written if its names are allowed, no file is in the way of a folder, and no folder is
    in the way of the file. -/
theorem exists_written (bytes : List UInt8) (hallowed : ∀ n ∈ path, isAllowed n = true)
    (hfile : ∀ q, q <+: path → q ≠ path → root.read? q = none) (hfolder : ¬ root.IsFolder path) :
    ∃ root', Written bytes root path root' := by
  induction path generalizing root with
  | nil =>
      cases root with
      | file old => exact ⟨_, .file old⟩
      | folder children => exact absurd ⟨children, rfl⟩ hfolder
  | cons name path ih =>
      obtain ⟨hname, hpath⟩ := List.forall_mem_cons.mp hallowed
      cases root with
      | file old => cases hfile [] List.nil_prefix (List.cons_ne_nil _ _).symm
      | folder children =>
          have hfile' : ∀ q, q <+: path → q ≠ path →
              (Children.enter children name path).read? q = none := by
            intro q htoward hne
            rw [read?_enter hne, ← read?_cons]
            have hnext : name :: q <+: name :: path := List.cons_prefix_cons.mpr ⟨rfl, htoward⟩
            exact hfile _ hnext fun h => hne (List.cons.inj h).2
          have hfolder' : ¬ (Children.enter children name path).IsFolder path := by
            intro hentered
            rcases isFolder_enter hentered with hold | ⟨_, hne⟩
            · exact hfolder hold
            · exact hne rfl
          obtain ⟨node, hnode⟩ := ih hpath hfile' hfolder'
          exact ⟨_, .folder hname hnode⟩

@[elab_as_elim]
theorem Node.ind {motive : Node → Prop} (file : ∀ bytes, motive (.file bytes))
    (folder : ∀ children : Children, (∀ c ∈ children, motive c.2) → motive (.folder children))
    (node : Node) : motive node :=
  Node.rec (motive_1 := motive) (motive_2 := fun children => ∀ c ∈ children, motive c.2)
    (motive_3 := fun c => motive c.2) file folder
    (fun _ hmem => absurd hmem List.not_mem_nil)
    (fun _ _ hc hcs => List.forall_mem_cons.mpr ⟨hc, hcs⟩)
    (fun _ _ hnode => hnode) node

theorem filesByName_eq (children : Children) :
    filesByName children = children.map fun c => (c.1, c.2.files) := by
  induction children with
  | nil => rw [filesByName, List.map_nil]
  | cons c children ih => rw [filesByName, ih, List.map_cons]

theorem mem_files_folder {f : FileAt} : f ∈ (Node.folder children).files ↔
    ∃ c ∈ children, ∃ g ∈ c.2.files, FileAt.under c.1 g = f := by
  rw [Node.files, filesByName_eq, List.mem_flatMap]
  simp only [List.mem_mergeSort, List.mem_map, exists_exists_and_eq_and]

/-- The files of a folder are those that can be read in it. -/
theorem mem_files (h : root.Distinct) :
    (path, bytes) ∈ root.files ↔ root.read? path = some bytes := by
  induction path generalizing root with
  | nil =>
      cases root with
      | file old =>
          rw [Node.files, List.mem_singleton, Prod.mk.injEq, eq_comm (a := bytes)]
          exact ⟨fun h => congrArg some h.2, fun h => ⟨rfl, Option.some.inj h⟩⟩
      | folder children =>
          rw [mem_files_folder]
          constructor
          · rintro ⟨c, _, g, _, hunder⟩
            cases hunder
          · intro hread
            cases hread
  | cons name path ih =>
      cases root with
      | file old =>
          rw [Node.files, List.mem_singleton, Prod.mk.injEq]
          exact ⟨fun h => absurd h.1 (List.cons_ne_nil _ _), fun h => (nomatch h)⟩
      | folder children =>
          rw [read?_cons, mem_files_folder, Option.bind_eq_some_iff]
          constructor
          · rintro ⟨⟨n, node⟩, hmem, ⟨q, held⟩, hg, hunder⟩
            cases hunder
            have hlookup := (lookup_eq_some_iff h.keys).mpr hmem
            exact ⟨node, hlookup, (ih (h.child hlookup)).mp hg⟩
          · rintro ⟨node, hlookup, hread⟩
            have hmem := (lookup_eq_some_iff h.keys).mp hlookup
            exact ⟨(name, node), hmem, (path, bytes), (ih (h.child hlookup)).mpr hread, rfl⟩

/-- A path comes before another by the bytes of the first name in which they differ. -/
def Precedes (path q : Path) : Prop := path.map Text.Utf8.encode < q.map Text.Utf8.encode

instance (path q : Path) : Decidable (Precedes path q) :=
  inferInstanceAs (Decidable (path.map Text.Utf8.encode < q.map Text.Utf8.encode))

theorem encode_inj {a b : String} (h : Text.Utf8.encode a = Text.Utf8.encode b) : a = b := by
  rw [← Text.Utf8.decode_encode a, h, Text.Utf8.decode_encode]

theorem precedes_cons (name : String) : Precedes (name :: path) (name :: q) ↔ Precedes path q :=
  List.cons_lt_cons_self

theorem precedes_of_lt (h : Text.Utf8.encode name < Text.Utf8.encode n) :
    Precedes (name :: path) (n :: q) := List.Lex.rel h

theorem Precedes.asymm (h : Precedes path q) : ¬ Precedes q path := List.lt_asymm h

theorem Precedes.ne (h : Precedes path q) : path ≠ q := by
  rintro rfl
  exact List.lt_irrefl _ h

/-- What has different keys is sorted strictly by them. -/
theorem pairwise_sorted {α κ : Type} [LT κ] [LE κ] [Std.IsLinearOrder κ] [Std.LawfulOrderLT κ]
    [DecidableLE κ] (key : α → κ) {l : List α} (h : (l.map key).Nodup) :
    (l.mergeSort fun a b => decide (key a ≤ key b)).Pairwise fun a b => key a < key b := by
  have hle : (l.mergeSort fun a b => decide (key a ≤ key b)).Pairwise fun a b =>
      decide (key a ≤ key b) = true := by
    apply List.pairwise_mergeSort
    · intro a b c hab hbc
      exact decide_eq_true (Std.le_trans (of_decide_eq_true hab) (of_decide_eq_true hbc))
    · intro a b
      rw [Bool.or_eq_true, decide_eq_true_eq, decide_eq_true_eq]
      exact Std.le_total
  have hne : (l.mergeSort fun a b => decide (key a ≤ key b)).Pairwise fun a b => key a ≠ key b := by
    have hperm := (List.mergeSort_perm l fun a b => decide (key a ≤ key b)).map key
    exact List.pairwise_map.mp (hperm.nodup_iff.mpr h)
  refine (hle.and hne).imp ?_
  rintro a b ⟨hab, hdiffer⟩
  exact Std.lt_of_le_of_ne (of_decide_eq_true hab) hdiffer

/-- The files of a folder are listed in the order of their paths. -/
theorem pairwise_files (h : root.Distinct) : root.files.Pairwise fun f g => Precedes f.1 g.1 := by
  induction root using Node.ind with
  | file bytes => exact List.pairwise_singleton _ _
  | folder children ih =>
      have hkeys : ((filesByName children).map fun c => Text.Utf8.encode c.1).Nodup := by
        have hnames := h.keys.map_on fun a _ b _ hab => encode_inj hab
        rw [List.map_map] at hnames
        rw [filesByName_eq, List.map_map]
        exact hnames
      rw [Node.files, List.pairwise_flatMap]
      constructor
      · intro c hc
        rw [List.mem_mergeSort, filesByName_eq] at hc
        obtain ⟨⟨name, node⟩, hmem, rfl⟩ := List.mem_map.mp hc
        have hnode := ih _ hmem (h.child ((lookup_eq_some_iff h.keys).mpr hmem))
        rw [List.pairwise_map]
        exact hnode.imp fun hfg => (precedes_cons name).mpr hfg
      · refine (pairwise_sorted (fun c : String × List FileAt => Text.Utf8.encode c.1) hkeys).imp ?_
        intro c d hlt f hf g hg
        obtain ⟨f, _, rfl⟩ := List.mem_map.mp hf
        obtain ⟨g, _, rfl⟩ := List.mem_map.mp hg
        exact precedes_of_lt hlt

/-- There is one list of all files in the order of their paths. -/
theorem files_eq {fs : List FileAt} (h : root.Distinct)
    (hmem : ∀ path bytes, (path, bytes) ∈ fs ↔ root.read? path = some bytes)
    (hsorted : fs.Pairwise fun f g => Precedes f.1 g.1) : root.files = fs := by
  have hnodup : ∀ {l : List FileAt}, (l.Pairwise fun f g => Precedes f.1 g.1) → l.Nodup :=
    fun hl => hl.imp fun hfg hsame => hfg.ne (congrArg Prod.fst hsame)
  have hfiles := pairwise_files h
  have hperm : root.files.Perm fs := by
    refine (List.perm_ext_iff_of_nodup (hnodup hfiles) (hnodup hsorted)).mpr ?_
    rintro ⟨path, bytes⟩
    rw [mem_files h, hmem]
  refine hperm.eq_of_pairwise ?_ hfiles hsorted
  intro f g _ _ hfg hgf
  exact absurd hgf hfg.asymm

end Tabular.Disk
