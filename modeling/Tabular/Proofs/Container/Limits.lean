/- How far the limits of a container bound what is read from it: by the sizes that the entries
   declare, and by the bytes that they yield only where no entry yields more than it declares. -/
import Mathlib.Algebra.GroupWithZero.Nat
import Tabular.Proofs.Archive.Entry
import Tabular.Container

namespace Tabular
open Tabular.Archive (Part Entry)
variable {a : Archive} {limits : Limits} {c c' : Container} {e : Entry} {name : String}
  {names : List String} {bytes : List UInt8}

/-- Whether parts of some lengths are within the limits, each of them and all together. -/
structure Limits.Bound (limits : Limits) (lengths : List Nat) : Prop where
  part : ∀ n ∈ lengths, n ≤ limits.partBytes
  total : lengths.sum ≤ limits.totalBytes

namespace Container

/-- A part that has been read, with its entry. -/
structure Obtained where
  entry : Entry
  bytes : List UInt8

def Obtained.declared (o : Obtained) : Nat := o.entry.size

def Obtained.length (o : Obtained) : Nat := o.bytes.length

/-- The container once a part of an entry has been read. -/
def spend (c : Container) (e : Entry) : Container := { c with bytesRead := c.bytesAfter e.size }

/-- What can be asked of a container: a part, a part that may be missing, or every file. -/
inductive Request where
  | part (name : String)
  | optional (name : String)
  | all

/-- The parts that reading names in order gives, up to the first that fails. -/
def obtains (c : Container) : List String → List Obtained
  | [] => []
  | name :: names =>
    match c.part name with
    | .error _ => []
    | .ok (e, bytes) => ⟨e, bytes⟩ :: (c.spend e).obtains names

/-- The names that a request reads, in order. -/
def Request.asks (c : Container) : Request → List String
  | .part name => [name]
  | .optional name => [name]
  | .all => c.names.toOption.getD []

/-- The container after a request, whether it fails or not. -/
def Request.after (c : Container) : Request → Container
  | .part name => (c.read name).1
  | .optional name => (c.readOptional name).1
  | .all => c.readAll.1

/-- All parts that are read in answer to requests, failing ones included. A part that is read twice
    is there twice, and what was read before another part failed is there too. -/
def obtainsAll (c : Container) : List Request → List Obtained
  | [] => []
  | r :: rs => c.obtains (r.asks c) ++ (r.after c).obtainsAll rs

theorem ofArchive_eq_ok : ofArchive limits a = .ok c ↔
    a.entries.length ≤ limits.parts ∧ hasSchema a = true ∧ c = ⟨a, limits, 0⟩ := by
  rw [ofArchive]
  by_cases hcount : limits.parts < a.entries.length
  · simp only [if_pos hcount, reduceCtorEq, Nat.not_le_of_lt hcount, false_and]
  · have hle := Nat.le_of_not_lt hcount
    by_cases hschema : hasSchema a = true
    · simp only [if_neg hcount, hschema, if_true, Except.ok.injEq, hle, true_and]
      exact eq_comm
    · simp only [if_neg hcount, hschema, Bool.false_eq_true, if_false, reduceCtorEq, false_and,
        and_false]

/-- What it takes for a part to be read. -/
theorem part_eq_ok : c.part name = .ok (e, bytes) ↔
    c.archive.find? name = some e ∧ e.Yields bytes ∧ e.size ≤ c.limits.partBytes ∧
      c.bytesAfter e.size ≤ c.limits.totalBytes := by
  rw [part]
  cases hfind : c.archive.find? name with
  | none => simp only [reduceCtorEq, false_and]
  | some found =>
      cases hopen : found.open with
      | error reason =>
          simp only [hopen, reduceCtorEq, Option.some.injEq, false_iff]
          rintro ⟨rfl, ⟨kept, hkept, _⟩, _⟩
          rw [hopen] at hkept
          cases hkept
      | ok kept =>
          simp only [hopen, Option.some.injEq]
          split
          · rename_i hpart
            simp only [reduceCtorEq, false_iff]
            rintro ⟨rfl, _, hle, _⟩
            exact Nat.not_le_of_lt hpart hle
          · split
            · rename_i htotal
              simp only [reduceCtorEq, false_iff]
              rintro ⟨rfl, _, _, hle⟩
              exact Nat.not_le_of_lt htotal hle
            · rename_i hpart htotal
              cases hcontent : found.content kept with
              | error reason =>
                  simp only [reduceCtorEq, false_iff]
                  rintro ⟨rfl, ⟨kept', hkept, hyield⟩, _⟩
                  rw [hopen, Except.ok.injEq] at hkept
                  rw [← hkept, hcontent] at hyield
                  cases hyield
              | ok content =>
                  simp only [Except.ok.injEq, Prod.mk.injEq]
                  constructor
                  · rintro ⟨rfl, rfl⟩
                    exact ⟨rfl, ⟨kept, hopen, hcontent⟩, Nat.le_of_not_lt hpart,
                      Nat.le_of_not_lt htotal⟩
                  · rintro ⟨rfl, ⟨kept', hkept, hyield⟩, _⟩
                    rw [hopen, Except.ok.injEq] at hkept
                    rw [← hkept, hcontent, Except.ok.injEq] at hyield
                    exact ⟨rfl, hyield⟩

theorem read_of_error {fault : ContainerFault} (h : c.part name = .error fault) :
    c.read name = (c, Traced.lift (.error fault)) := by
  rw [read, h]

theorem read_of_ok (h : c.part name = .ok (e, bytes)) :
    (c.read name).1 = c.spend e ∧ (c.read name).2.result = .ok bytes := by
  rw [read, h]
  exact ⟨rfl, rfl⟩

/-- The parts that are answered are those that have been obtained. -/
theorem obtains_of_readEach {parts : List Part} (h : (c.readEach names).2.result = .ok parts) :
    parts.map Prod.fst = names ∧ parts.map Prod.snd = (c.obtains names).map Obtained.bytes := by
  induction names generalizing c parts with
  | nil =>
      rw [readEach, Traced.result_pure, Except.ok.injEq] at h
      subst h
      exact ⟨rfl, rfl⟩
  | cons name names ih =>
      rw [obtains]
      rw [readEach] at h
      cases hpart : c.part name with
      | error fault =>
          rw [read_of_error hpart] at h
          cases h
      | ok found =>
          obtain ⟨hafter, hresult⟩ := read_of_ok hpart
          simp only [hresult, hafter] at h
          cases hmore : ((c.spend found.1).readEach names).2.result with
          | error fault =>
              rw [hmore] at h
              cases h
          | ok more =>
              rw [hmore] at h
              cases h
              obtain ⟨hnames, hbytes⟩ := ih hmore
              exact ⟨congrArg (name :: ·) hnames, congrArg (found.2 :: ·) hbytes⟩

/-- What has been read one after the other, and the container afterwards. -/
inductive Reads : Container → List Obtained → Container → Prop
  | done (c : Container) : Reads c [] c
  | read {c c' : Container} {name : String} {o : Obtained} {os : List Obtained} :
      c.part name = .ok (o.entry, o.bytes) → Reads (c.spend o.entry) os c' → Reads c (o :: os) c'

theorem Reads.append {c'' : Container} {os os' : List Obtained} (h : Reads c os c')
    (h' : Reads c' os' c'') : Reads c (os ++ os') c'' := by
  induction h with
  | done c => exact h'
  | read hpart _ ih => exact .read hpart (ih h')

theorem reads_obtains (c : Container) (names : List String) :
    Reads c (c.obtains names) (c.readEach names).1 := by
  induction names generalizing c with
  | nil => exact .done c
  | cons name names ih =>
      rw [obtains, readEach]
      cases hpart : c.part name with
      | error fault =>
          rw [read_of_error hpart]
          exact .done c
      | ok found =>
          obtain ⟨hafter, hresult⟩ := read_of_ok hpart
          simp only [hresult, hafter]
          exact .read hpart (ih (c.spend found.1))

theorem Request.reads (c : Container) (r : Request) :
    Reads c (c.obtains (r.asks c)) (r.after c) := by
  have hone : ∀ name, Reads c (c.obtains [name]) (c.read name).1 := by
    intro name
    have hreads := reads_obtains c [name]
    rw [readEach] at hreads
    cases hresult : (c.read name).2.result with
    | error fault =>
        simp only [hresult] at hreads
        exact hreads
    | ok bytes =>
        simp only [hresult, readEach] at hreads
        exact hreads
  cases r with
  | part name => exact hone name
  | optional name => exact hone name
  | all =>
      rw [Request.asks, Request.after, readAll]
      cases c.names with
      | error fault => exact .done c
      | ok names => exact reads_obtains c names

theorem reads_obtainsAll (c : Container) (rs : List Request) :
    ∃ c', Reads c (c.obtainsAll rs) c' := by
  induction rs generalizing c with
  | nil => exact ⟨c, .done c⟩
  | cons r rs ih =>
      obtain ⟨c', hmore⟩ := ih (r.after c)
      exact ⟨c', (r.reads c).append hmore⟩

/-- A container whose count of bytes is still within its limit, which is below the count at which
    counting stops. -/
structure Within (c : Container) : Prop where
  spent : c.bytesRead ≤ c.limits.totalBytes
  limit : c.limits.totalBytes < byteCountMax

/-- Reading a part keeps within the limits, by the size that its entry declares. -/
theorem Within.spend (h : c.Within) (hpart : c.part name = .ok (e, bytes)) :
    (c.spend e).Within ∧ (c.spend e).bytesRead = c.bytesRead + e.size ∧
      e.size ≤ c.limits.partBytes := by
  obtain ⟨_, _, hsize, htotal⟩ := part_eq_ok.mp hpart
  have hlimit := h.limit
  have hsum : c.bytesAfter e.size = c.bytesRead + e.size := by
    rw [bytesAfter] at htotal ⊢
    omega
  exact ⟨⟨htotal, hlimit⟩, hsum, hsize⟩

theorem Within.reads {os : List Obtained} (h : c.Within) (hreads : Reads c os c') :
    (∀ o ∈ os, o.declared ≤ c.limits.partBytes) ∧
      c.bytesRead + (os.map Obtained.declared).sum ≤ c.limits.totalBytes := by
  induction hreads with
  | done c => exact ⟨fun _ hnone => absurd hnone List.not_mem_nil, h.spent⟩
  | read hpart _ ih =>
      obtain ⟨hwithin, hspent, hsize⟩ := h.spend hpart
      obtain ⟨hparts, htotal⟩ := ih hwithin
      refine ⟨List.forall_mem_cons.mpr ⟨hsize, hparts⟩, ?_⟩
      rw [hspent, Nat.add_assoc] at htotal
      rw [List.map_cons, List.sum_cons]
      exact htotal

theorem Reads.yields {os : List Obtained} (h : Reads c os c') : ∀ o ∈ os,
    ∃ name, c.archive.find? name = some o.entry ∧ o.entry.Yields o.bytes ∧
      c.bytesAfter o.entry.size ≤ c.limits.totalBytes := by
  induction h with
  | done c => exact fun _ hnone => absurd hnone List.not_mem_nil
  | read hpart _ ih =>
      obtain ⟨hfind, hyields, _, htotal⟩ := part_eq_ok.mp hpart
      refine List.forall_mem_cons.mpr ⟨⟨_, hfind, hyields, htotal⟩, ?_⟩
      intro o ho
      obtain ⟨name, hfound, hyield, hle⟩ := ih o ho
      refine ⟨name, hfound, hyield, Nat.le_trans ?_ hle⟩
      simp only [bytesAfter, Container.spend]
      omega

theorem within_of_ofArchive (h : ofArchive limits a = .ok c)
    (hlimit : limits.totalBytes < byteCountMax) : c.Within := by
  obtain ⟨_, _, rfl⟩ := ofArchive_eq_ok.mp h
  exact ⟨Nat.zero_le _, hlimit⟩

theorem bound_declared (h : ofArchive limits a = .ok c) (hlimit : limits.totalBytes < byteCountMax)
    (rs : List Request) : limits.Bound ((c.obtainsAll rs).map Obtained.declared) := by
  have hwithin := within_of_ofArchive h hlimit
  obtain ⟨c', hreads⟩ := reads_obtainsAll c rs
  obtain ⟨hparts, htotal⟩ := hwithin.reads hreads
  obtain ⟨_, _, rfl⟩ := ofArchive_eq_ok.mp h
  rw [Nat.zero_add] at htotal
  exact ⟨List.forall_mem_map.mpr hparts, htotal⟩

/-- Whether no entry that can be found and read yields more bytes than it declares. An entry whose
    size is the greatest count there is cannot be read within a lower limit. -/
def Truthful (a : Archive) : Prop :=
  ∀ name e bytes, a.find? name = some e → e.Yields bytes → e.size < byteCountMax →
    bytes.length ≤ e.size

theorem sum_length_le {os : List Obtained} (h : ∀ o ∈ os, o.length ≤ o.declared) :
    (os.map Obtained.length).sum ≤ (os.map Obtained.declared).sum := by
  induction os with
  | nil => exact Nat.le_refl 0
  | cons o os ih =>
      obtain ⟨ho, hmore⟩ := List.forall_mem_cons.mp h
      rw [List.map_cons, List.map_cons, List.sum_cons, List.sum_cons]
      exact Nat.add_le_add ho (ih hmore)

theorem bound_length (htrue : Truthful a) (h : ofArchive limits a = .ok c)
    (hlimit : limits.totalBytes < byteCountMax) (rs : List Request) :
    limits.Bound ((c.obtainsAll rs).map Obtained.length) := by
  obtain ⟨hparts, htotal⟩ := bound_declared h hlimit rs
  obtain ⟨c', hreads⟩ := reads_obtainsAll c rs
  have hyields := hreads.yields
  obtain ⟨_, _, rfl⟩ := ofArchive_eq_ok.mp h
  have hle : ∀ o ∈ (Container.mk a limits 0).obtainsAll rs, o.length ≤ o.declared := by
    intro o ho
    obtain ⟨name, hfind, hyield, hsize⟩ := hyields o ho
    apply htrue name o.entry o.bytes hfind hyield
    simp only [bytesAfter] at hsize
    omega
  refine ⟨List.forall_mem_map.mpr ?_, Nat.le_trans (sum_length_le hle) htotal⟩
  intro o ho
  exact Nat.le_trans (hle o ho) (List.forall_mem_map.mp hparts o ho)

/-- An entry that yields more than it declares is read beyond limits that admit what it declares. -/
theorem not_bound_of_longer (hschema : hasSchema a = true) (hfind : a.find? name = some e)
    (hyields : e.Yields bytes) (hsize : e.size < byteCountMax) (hlonger : e.size < bytes.length) :
    ∃ limits c, limits.totalBytes < byteCountMax ∧ ofArchive limits a = .ok c ∧
      ¬ limits.Bound ((c.obtainsAll [.part name]).map Obtained.length) := by
  have hopen : ofArchive ⟨a.entries.length, e.size, e.size⟩ a =
      .ok ⟨a, ⟨a.entries.length, e.size, e.size⟩, 0⟩ :=
    ofArchive_eq_ok.mpr ⟨Nat.le_refl _, hschema, rfl⟩
  refine ⟨_, _, hsize, hopen, ?_⟩
  intro hbound
  have hpart : part ⟨a, ⟨a.entries.length, e.size, e.size⟩, 0⟩ name = .ok (e, bytes) := by
    refine part_eq_ok.mpr ⟨hfind, hyields, Nat.le_refl _, ?_⟩
    simp only [bytesAfter, Nat.zero_add]
    exact Nat.min_le_left _ _
  have hone := hbound.total
  simp only [obtainsAll, Request.asks, obtains, hpart, List.append_nil, List.map_cons, List.map_nil,
    List.sum_cons, List.sum_nil, Obtained.length] at hone
  omega

/-- However parts are read, their declared sizes are within the limits. Their bytes are so for all
    limits exactly when no entry yields more than it declares. -/
theorem bound_iff_truthful (hschema : hasSchema a = true) :
    (∀ limits c, limits.totalBytes < byteCountMax → ofArchive limits a = .ok c → ∀ rs,
        limits.Bound ((c.obtainsAll rs).map Obtained.declared)) ∧
      ((∀ limits c, limits.totalBytes < byteCountMax → ofArchive limits a = .ok c → ∀ rs,
          limits.Bound ((c.obtainsAll rs).map Obtained.length)) ↔ Truthful a) := by
  refine ⟨fun limits c hlimit h rs => bound_declared h hlimit rs, ?_, ?_⟩
  · intro hbound name e bytes hfind hyields hsize
    by_contra hlonger
    obtain ⟨limits, c, hlimit, hopen, hnot⟩ :=
      not_bound_of_longer hschema hfind hyields hsize (Nat.lt_of_not_le hlonger)
    exact hnot (hbound limits c hlimit hopen [.part name])
  · intro htrue limits c hlimit h rs
    exact bound_length htrue h hlimit rs

/-- The entry of a model that has two bytes, and declares some other number. -/
def twoBytes (size : Nat) : Entry :=
  ⟨schemaPart, size, 2, Archive.checksum [0x7b, 0x7d], .stored, false, .ok [0x7b, 0x7d]⟩

theorem yields_twoBytes (size : Nat) : (twoBytes size).Yields [0x7b, 0x7d] := by
  refine ⟨[0x7b, 0x7d], rfl, ?_⟩
  simp only [Entry.content, twoBytes, Archive.Method.unpack, bind, Except.bind, if_true, pure,
    Except.pure]

theorem find?_twoBytes (size : Nat) : Archive.find? ⟨[twoBytes size]⟩ schemaPart =
    some (twoBytes size) := rfl

theorem truthful_twoBytes : Truthful ⟨[twoBytes 2]⟩ := by
  intro name e bytes hfind hyields _
  have hmem := List.mem_reverse.mp (List.mem_of_find?_eq_some hfind)
  obtain rfl := List.mem_singleton.mp hmem
  rw [hyields.unique (yields_twoBytes 2)]
  exact Nat.le_refl 2

theorem bound_iff_truthful_twoBytes : hasSchema ⟨[twoBytes 2]⟩ = true ∧
    ∀ c, ofArchive ⟨1, 2, 4⟩ ⟨[twoBytes 2]⟩ = .ok c → Limits.Bound ⟨1, 2, 4⟩
      ((c.obtainsAll [.part schemaPart, .all, .optional "Version"]).map Obtained.length) :=
  have hschema : hasSchema ⟨[twoBytes 2]⟩ = true := by decide
  ⟨hschema, fun c h => (bound_iff_truthful hschema).2.mpr truthful_twoBytes ⟨1, 2, 4⟩ c
    (by decide) h _⟩

/-- One byte may be read, and two are. -/
theorem not_bound_twoBytes : ∃ c, ofArchive ⟨1, 1, 1⟩ ⟨[twoBytes 1]⟩ = .ok c ∧
    (c.read schemaPart).2.result = .ok [0x7b, 0x7d] ∧
      ¬ Limits.Bound ⟨1, 1, 1⟩ ((c.obtainsAll [.part schemaPart]).map Obtained.length) := by
  have hpart : part ⟨⟨[twoBytes 1]⟩, ⟨1, 1, 1⟩, 0⟩ schemaPart =
      .ok (twoBytes 1, [0x7b, 0x7d]) :=
    part_eq_ok.mpr ⟨find?_twoBytes 1, yields_twoBytes 1, Nat.le_refl 1, Nat.le_refl 1⟩
  refine ⟨_, ofArchive_eq_ok.mpr ⟨Nat.le_refl 1, by decide, rfl⟩, (read_of_ok hpart).2, ?_⟩
  intro hbound
  have hone := hbound.total
  simp only [obtainsAll, Request.asks, obtains, hpart, List.append_nil, List.map_cons, List.map_nil,
    List.sum_cons, List.sum_nil, Obtained.length, List.length_cons, List.length_nil] at hone
  omega

end Container

end Tabular
