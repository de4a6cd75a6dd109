/- What entries yield, and how an archive finds them. -/
import Tabular.Archive.Writer
import Mathlib.Data.List.Forall2
import Mathlib.Data.List.Nodup

namespace Tabular.Archive
variable {a : Archive} {e : Entry} {es : List Entry} {p : Part} {parts : List Part} {name : String}
  {bytes bytes' : List UInt8}

/-- Whether reading an entry to its end gives some bytes. -/
def Entry.Yields (e : Entry) (bytes : List UInt8) : Prop :=
  ∃ kept, e.open = .ok kept ∧ e.content kept = .ok bytes

theorem Entry.Yields.unique (h : e.Yields bytes) (h' : e.Yields bytes') : bytes = bytes' := by
  obtain ⟨kept, hopen, hcontent⟩ := h
  obtain ⟨kept', hopen', hcontent'⟩ := h'
  rw [hopen, Except.ok.injEq] at hopen'
  subst hopen'
  rw [hcontent, Except.ok.injEq] at hcontent'
  exact hcontent'

/-- An entry that keeps a part, whatever size it declares. -/
structure Entry.Keeps (e : Entry) (p : Part) : Prop where
  name : e.name = p.1
  yields : e.Yields p.2

/-- An entry that keeps a part and declares its size. -/
structure Entry.Holds (e : Entry) (p : Part) : Prop extends e.Keeps p where
  size : e.size = p.2.length

/-- The entries that are no folders. -/
def files (a : Archive) : List Entry := a.entries.filter fun e => !isFolderName e.name

/-- The archive in the bytes of a medium has an entry for each part, in order. -/
def Stores (medium : Medium) (bytes : List UInt8) (parts : List Part) : Prop :=
  ∃ a, ofBytes medium bytes = .ok a ∧ List.Forall₂ Entry.Holds a.entries parts

section Search
variable {α β κ : Type} [BEq κ] [LawfulBEq κ] {key : α → κ} {k : κ} {x : α} {xs : List α}

theorem find?_key_eq_some (h : xs.find? (key · == k) = some x) : x ∈ xs ∧ key x = k :=
  ⟨List.mem_of_find?_eq_some h, beq_iff_eq.mp (@List.find?_some α (key · == k) x xs h)⟩

theorem find?_key_of_mem (h : x ∈ xs) : ∃ y, xs.find? (key · == key x) = some y := by
  cases hfind : xs.find? (key · == key x) with
  | some y => exact ⟨y, rfl⟩
  | none => exact absurd (beq_self_eq_true (key x)) (List.find?_eq_none.mp hfind x h)

/-- Lists that agree element by element are searched alike. -/
theorem rel_find? {R : α → β → Prop} {ys : List β} {f : α → Bool} {g : β → Bool}
    (hfg : ∀ x y, R x y → f x = g y) (h : List.Forall₂ R xs ys) :
    Option.Rel R (xs.find? f) (ys.find? g) := by
  induction h with
  | nil => exact .none
  | cons hxy _ ih =>
      rw [List.find?_cons, List.find?_cons, hfg _ _ hxy]
      split
      · exact .some hxy
      · exact ih

theorem map_eq_of_rel {γ : Type} {R : α → β → Prop} {ys : List β} {f : α → γ} {g : β → γ}
    (hfg : ∀ x y, R x y → f x = g y) (h : List.Forall₂ R xs ys) : xs.map f = ys.map g := by
  rw [← List.forall₂_eq_eq_eq]
  exact List.rel_map hfg h

end Search

/-- A file whose name no other file has is found under its name. -/
theorem find?_of_nodup (hnodup : (a.files.map Entry.name).Nodup) (he : e ∈ a.files) :
    a.find? e.name = some e := by
  obtain ⟨hmem, hfile⟩ := List.mem_filter.mp he
  obtain ⟨found, hfind⟩ :=
    @find?_key_of_mem Entry String _ _ Entry.name e _ (List.mem_reverse.mpr hmem)
  obtain ⟨hfound, hname⟩ := find?_key_eq_some hfind
  have hfiles : found ∈ a.files := by
    rw [← hname] at hfile
    exact List.mem_filter.mpr ⟨List.mem_reverse.mp hfound, hfile⟩
  rw [find?, hfind, List.inj_on_of_nodup_map hnodup hfiles he hname]

/-- The bytes of the last part of a name. -/
def lastBytes (parts : List Part) (name : String) : List UInt8 :=
  (parts.reverse.find? (Prod.fst · == name)).elim [] Prod.snd

/-- Each name with the bytes of the last part of that name. -/
def lastContents (parts : List Part) : List Part := parts.map fun p => (p.1, lastBytes parts p.1)

theorem find?_last (hp : p ∈ parts) :
    parts.reverse.find? (Prod.fst · == p.1) = some (p.1, lastBytes parts p.1) := by
  obtain ⟨q, hlast⟩ := @find?_key_of_mem Part String _ _ Prod.fst p _ (List.mem_reverse.mpr hp)
  rw [lastBytes, hlast, ← (find?_key_eq_some hlast).2]
  rfl

theorem lastBytes_mem (hp : p ∈ parts) : (p.1, lastBytes parts p.1) ∈ parts :=
  List.mem_reverse.mp (List.mem_of_find?_eq_some (find?_last hp))

/-- What is found under the name of a part is the entry of the last part of that name. -/
theorem find?_holds (h : List.Forall₂ Entry.Holds a.entries parts) (hp : p ∈ parts) :
    ∃ e, a.find? p.1 = some e ∧ e.Holds (p.1, lastBytes parts p.1) := by
  have hrel : Option.Rel Entry.Holds (a.find? p.1) (parts.reverse.find? (Prod.fst · == p.1)) := by
    refine rel_find? ?_ (List.forall₂_reverse_iff.mpr h)
    intro e q he
    rw [he.name]
  rw [find?_last hp] at hrel
  cases hfind : a.find? p.1 with
  | none =>
      rw [hfind] at hrel
      cases hrel
  | some e =>
      rw [hfind] at hrel
      cases hrel with
      | some he => exact ⟨e, rfl, he⟩

/-- Whether parts of one name have the same bytes. -/
def OneContent (parts : List Part) : Prop := ∀ p ∈ parts, ∀ q ∈ parts, p.1 = q.1 → p.2 = q.2

instance (parts : List Part) : Decidable (OneContent parts) :=
  inferInstanceAs (Decidable (∀ p ∈ parts, ∀ q ∈ parts, p.1 = q.1 → p.2 = q.2))

theorem lastContents_eq_iff : lastContents parts = parts ↔ OneContent parts := by
  have hparts : lastContents parts = parts ↔ ∀ p ∈ parts, lastBytes parts p.1 = p.2 := by
    have hid := @List.map_inj_left Part Part parts (fun p => (p.1, lastBytes parts p.1)) id
    rw [List.map_id] at hid
    rw [lastContents, hid]
    exact forall₂_congr fun p _ => ⟨congrArg Prod.snd, congrArg (Prod.mk p.1)⟩
  rw [hparts]
  constructor
  · intro h p hp q hq hname
    rw [← h p hp, ← h q hq, hname]
  · intro h p hp
    exact h _ (lastBytes_mem hp) p hp rfl

end Tabular.Archive
