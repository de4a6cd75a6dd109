/- A template that has been saved is saved the same when it is opened again. -/
import Tabular.Bundle
import Tabular.Proofs.Model.Depth
import Tabular.Proofs.Report.Layout
import Tabular.Proofs.RoundTrip

namespace Tabular
open Tabular.Archive (Part)
open Tabular.Json Tabular.Document Tabular.Report
variable {parts : List Part} {name id fresh : String} {bytes : List UInt8} {v : Value}
  {config : Model.Config} {b b' : Bundle} {layout? : Option Layout}

/-- The layout that is opened from the bytes of its part, if there are any. -/
def Bundle.LayoutFrom (bytes? : Option (List UInt8)) (layout? : Option Layout) : Prop :=
  match bytes? with
  | none => none = layout?
  | some bytes => ∃ l, Layout.ofBytes bytes = .ok l ∧ some l = layout?

theorem Bundle.layoutOf_eq_ok : (Bundle.layoutOf parts).result = .ok layout? ↔
    Bundle.LayoutFrom (partBytes? parts layoutPart) layout? := by
  rw [Bundle.layoutOf]
  cases partBytes? parts layoutPart with
  | none => simp only [Bundle.LayoutFrom, Traced.result_pure, Except.ok.injEq]
  | some bytes =>
      simp only [Bundle.LayoutFrom, Traced.result_bind, Traced.result_lift, Traced.result_notes,
        Traced.result_pure, Model.bind_eq_ok, Model.mapError_eq_ok, Except.ok.injEq, exists_const,
        true_and]

/-- What opening parts finds in them. -/
structure Bundle.Opened (id : String) (config : Model.Config) (found : List Part) (b : Bundle) :
    Prop where
  parts : b.parts = found
  schema : ∃ bytes document, partBytes? found schemaPart = some bytes ∧
    readJson bytes = .ok document ∧ Model.Graph.Loaded id config document b.schema
  layout : Bundle.LayoutFrom (partBytes? found layoutPart) b.layout

theorem Bundle.ofParts_eq_ok :
    (Bundle.ofParts id config parts).result = .ok b ↔ Bundle.Opened id config parts b := by
  have hbytes : ∀ bytes : List UInt8, (partBytes? parts schemaPart).elim
      (.error (.container (.missingPart schemaPart))) .ok = (.ok bytes : Except BundleFault _) ↔
        partBytes? parts schemaPart = some bytes := by
    intro bytes
    cases partBytes? parts schemaPart <;>
      simp only [Option.elim, Except.ok.injEq, Option.some.injEq, reduceCtorEq]
  simp only [Bundle.ofParts, Traced.result_bind, Traced.result_lift, Traced.result_note,
    Traced.result_pure, Traced.mapError, Model.bind_eq_ok, Model.mapError_eq_ok, hbytes,
    Bundle.layoutOf_eq_ok, Model.Graph.load_eq_ok, Except.ok.injEq]
  constructor
  · rintro ⟨bytes, hbytes, document, hdocument, schema, hschema, layout, hlayout, _, _, rfl⟩
    exact ⟨rfl, ⟨bytes, document, hbytes, hdocument, hschema⟩, hlayout⟩
  · obtain ⟨schema, layout, found⟩ := b
    rintro ⟨rfl, ⟨bytes, document, hbytes, hdocument, hschema⟩, hlayout⟩
    exact ⟨bytes, hbytes, document, hdocument, schema, hschema, layout, hlayout, (), trivial, rfl⟩

theorem Bundle.fst_renew (b : Bundle) (p : Part) : (b.renew p).1 = p.1 := by
  rw [Bundle.renew]
  split
  · rfl
  · split <;> rfl

theorem Bundle.lookup_map_renew (b : Bundle) (parts : List Part) (name : String) :
    partBytes? (parts.map b.renew) name =
      (partBytes? parts name).map fun bytes => (b.renew (name, bytes)).2 := by
  induction parts with
  | nil => rfl
  | cons p parts ih =>
      obtain ⟨other, bytes⟩ := p
      have hsame : ((b.renew (other, bytes)).1) = other := b.fst_renew _
      rw [partBytes?] at ih ⊢
      rw [List.map_cons, partBytes?, List.lookup_cons, List.lookup_cons, hsame, ih, partBytes?]
      by_cases hname : name = other
      · subst hname
        simp only [beq_self_eq_true]
        rfl
      · simp only [beq_eq_false_iff_ne.mpr hname]

theorem Bundle.renew_renew (b : Bundle) (p : Part) : b.renew (b.renew p) = b.renew p := by
  obtain ⟨name, bytes⟩ := p
  by_cases hschema : name = schemaPart
  · simp only [Bundle.renew, hschema, if_true]
  · by_cases hlayout : name = layoutPart
    · subst hlayout
      simp only [Bundle.renew, hschema, if_false, if_true]
      cases b.layoutBytes? <;> rfl
    · simp only [Bundle.renew, hschema, hlayout, if_false]

theorem Bundle.renew_congr (hschema : b'.schemaBytes = b.schemaBytes)
    (hlayout : b'.layoutBytes? = b.layoutBytes?) : b'.renew = b.renew := by
  funext p
  rw [Bundle.renew, Bundle.renew, hschema, hlayout]

theorem Bundle.added_of_some (h : partBytes? parts name = some bytes)
    (bytes? : Option (List UInt8)) : Bundle.added parts name bytes? = [] := by
  simp only [Bundle.added, h]

theorem Bundle.added_none (parts : List Part) (name : String) :
    Bundle.added parts name none = [] := by
  unfold Bundle.added
  cases partBytes? parts name <;> rfl

namespace Bundle.Opened

/-- Every part that is written anew has been read. -/
theorem toParts_eq (h : Opened id config parts b) : b.toParts = parts.map b.renew := by
  obtain ⟨bytes, _, hbytes, _⟩ := h.schema
  have hlayout : added parts layoutPart b.layoutBytes? = [] := by
    have hfrom := h.layout
    cases hpart : partBytes? parts layoutPart with
    | none =>
        rw [hpart] at hfrom
        rw [layoutBytes?, ← hfrom, Option.map_none, added_none]
    | some bytes => exact added_of_some hpart _
  rw [toParts, h.parts, hlayout, added_of_some hbytes, List.append_nil, List.append_nil]

theorem partBytes?_schema (h : Opened id config parts b) :
    partBytes? b.toParts schemaPart = some b.schemaBytes := by
  obtain ⟨bytes, _, hbytes, _⟩ := h.schema
  rw [h.toParts_eq, lookup_map_renew, hbytes, Option.map_some, renew, if_pos rfl]

theorem partBytes?_layout (h : Opened id config parts b) :
    partBytes? b.toParts layoutPart =
      (partBytes? parts layoutPart).map fun bytes => b.layoutBytes?.getD bytes := by
  have hne : layoutPart ≠ schemaPart := by decide
  simp only [h.toParts_eq, lookup_map_renew, renew, if_neg hne, if_true]

theorem sound_schema (h : Opened id config parts b) : b.schema.Sound := by
  obtain ⟨bytes, document, _, hread, hloaded⟩ := h.schema
  exact hloaded.sound (keyed_of_readJson hread)

theorem readJson_schemaBytes (h : Opened id config parts b)
    (hschema : ∀ bytes document, partBytes? parts schemaPart = some bytes →
      readJson bytes = .ok document → document.Integral) :
    readJson b.schemaBytes = .ok b.schema.dump := by
  obtain ⟨bytes, document, hbytes, hread, hloaded⟩ := h.schema
  have hdump := hloaded.tame_dump (n := 121)
    ⟨nesting_le_of_readJson hread, hschema bytes document hbytes hread⟩
  exact readJson_of_nesting_le h.sound_schema.keyed_dump hdump.integral hdump.nesting_le .pretty

theorem loaded_again (h : Opened id config parts b) (fresh : String) :
    Model.Graph.Loaded fresh config b.schema.dump b.schema.reload := by
  obtain ⟨_, _, _, _, hloaded⟩ := h.schema
  rw [← hloaded.config]
  exact h.sound_schema.loaded_reload fresh

theorem dump_again (h : Opened id config parts b) : b.schema.reload.dump = b.schema.dump := by
  obtain ⟨_, _, _, _, hloaded⟩ := h.schema
  exact h.sound_schema.dump_reload_of_not_cleared hloaded.not_groupsCleared

end Bundle.Opened

theorem Report.Layout.sound_of_ofBytes {l : Layout} (h : Layout.ofBytes bytes = .ok l) :
    l.Sound := by
  rw [Layout.ofBytes, Model.map_eq_ok] at h
  obtain ⟨v, hread, rfl⟩ := h
  exact Layout.sound_ofValue (keyed_of_readJson hread)

/-- The template that the saved parts make up. -/
def Bundle.reload (b : Bundle) : Bundle where
  schema := b.schema.reload
  layout := b.layout.map fun l => Layout.ofValue l.stored
  parts := b.toParts

namespace Bundle.Opened

theorem layoutFrom_again (h : Opened id config parts b)
    (hlayout : ∀ l ∈ b.layout, l.document.Integral ∧ l.stored.nesting ≤ 127) :
    LayoutFrom (partBytes? b.toParts layoutPart) b.reload.layout := by
  have hfrom := h.layout
  rw [h.partBytes?_layout, reload]
  cases hbytes : partBytes? parts layoutPart with
  | none =>
      rw [hbytes] at hfrom
      rw [← hfrom]
      rfl
  | some bytes =>
      rw [hbytes] at hfrom
      obtain ⟨l, hl, heq⟩ := hfrom
      obtain ⟨hintegral, hle⟩ := hlayout l heq.symm
      rw [layoutBytes?, ← heq, Option.map_some, Option.map_some, Option.map_some, Option.getD_some]
      exact ⟨_, (Layout.sound_of_ofBytes hl).ofBytes_toBytes hintegral hle, rfl⟩

theorem layoutBytes?_again (h : Opened id config parts b)
    (hlayout : ∀ l ∈ b.layout, l.document.Integral ∧ l.stored.nesting ≤ 127) :
    b.reload.layoutBytes? = b.layoutBytes? := by
  have hfrom := h.layout
  rw [layoutBytes?, reload, layoutBytes?, Option.map_map]
  cases hbytes : partBytes? parts layoutPart with
  | none =>
      rw [hbytes] at hfrom
      rw [← hfrom, Option.map_none, Option.map_none]
  | some bytes =>
      rw [hbytes] at hfrom
      obtain ⟨l, hl, heq⟩ := hfrom
      obtain ⟨hintegral, _⟩ := hlayout l heq.symm
      have hstored := (Layout.sound_of_ofBytes hl).stored_ofValue_stored hintegral
      rw [← heq, Option.map_some, Option.map_some, Function.comp, Layout.toBytes, hstored,
        Layout.toBytes]

theorem opened_again (h : Opened id config parts b)
    (hschema : ∀ bytes document, partBytes? parts schemaPart = some bytes →
      readJson bytes = .ok document → document.Integral)
    (hlayout : ∀ l ∈ b.layout, l.document.Integral ∧ l.stored.nesting ≤ 127) (fresh : String) :
    Opened fresh config b.toParts b.reload where
  parts := rfl
  schema := ⟨_, _, h.partBytes?_schema, h.readJson_schemaBytes hschema, h.loaded_again fresh⟩
  layout := h.layoutFrom_again hlayout

end Bundle.Opened

/-- Saving a template that has been opened keeps the names and the order of its parts, and all of
    those that hold neither the model nor the layout. What is saved is opened again, and saved as
    the same parts. -/
theorem Bundle.saved_again (h : (Bundle.ofParts id config parts).result = .ok b)
    (hschema : ∀ bytes document, partBytes? parts schemaPart = some bytes →
      readJson bytes = .ok document → document.Integral)
    (hlayout : ∀ l ∈ b.layout, l.document.Integral ∧ l.stored.nesting ≤ 127) (fresh : String) :
    List.Forall₂ (fun p q => q.1 = p.1 ∧ (p.1 ≠ schemaPart → p.1 ≠ layoutPart → q.2 = p.2))
        parts b.toParts ∧
      ∃ again, (Bundle.ofParts fresh config b.toParts).result = .ok again ∧
        again.toParts = b.toParts := by
  have hopened := Bundle.ofParts_eq_ok.mp h
  have hagain := hopened.opened_again hschema hlayout fresh
  have hrenew : b.reload.renew = b.renew :=
    Bundle.renew_congr (congrArg (writeJson .pretty) hopened.dump_again)
      (hopened.layoutBytes?_again hlayout)
  refine ⟨?_, b.reload, Bundle.ofParts_eq_ok.mpr hagain, ?_⟩
  · rw [hopened.toParts_eq, List.forall₂_map_right_iff, List.forall₂_same]
    intro p _
    refine ⟨b.fst_renew p, fun hs hl => ?_⟩
    rw [Bundle.renew, if_neg hs, if_neg hl]
  · rw [hagain.toParts_eq, hrenew, hopened.toParts_eq, List.map_map]
    exact List.map_congr_left fun p _ => b.renew_renew p

/-- The parts of a template, with one name given twice. -/
def sampleParts : List Part :=
  [("Version", [0x31, 0x00]),
    (layoutPart, writeJson .compact plainLayout.value),
    (schemaPart, writeJson .pretty Model.roughDocument.value),
    ("Version", [0x32, 0x00])]

theorem Bundle.saved_again_sampleParts : ∃ b again,
    (Bundle.ofParts "g" Model.Config.default sampleParts).result = .ok b ∧
      List.Forall₂ (fun p q => q.1 = p.1 ∧ (p.1 ≠ schemaPart → p.1 ≠ layoutPart → q.2 = p.2))
        sampleParts b.toParts ∧
      (Bundle.ofParts "h" Model.Config.default b.toParts).result = .ok again ∧
      again.toParts = b.toParts := by
  have hmodel : Model.roughDocument.value.Tame 127 := ⟨by decide, by cbv⟩
  have hlayout : plainLayout.value.Tame 127 := ⟨by decide, by cbv⟩
  have hmodelRead := readJson_of_nesting_le Model.roughDocument.keyed hmodel.integral
    hmodel.nesting_le .pretty
  have hlayoutRead := readJson_of_nesting_le plainLayout.keyed hlayout.integral
    hlayout.nesting_le .compact
  have hload : ∃ g, (Model.Graph.load "g" Model.Config.default
      Model.roughDocument.value).result = .ok g := ⟨_, rfl⟩
  obtain ⟨g, hg⟩ := hload
  have hparts : partBytes? sampleParts schemaPart =
      some (writeJson .pretty Model.roughDocument.value) := rfl
  have hopened : Bundle.Opened "g" Model.Config.default sampleParts
      ⟨g, some (Layout.ofValue plainLayout.value), sampleParts⟩ :=
    ⟨rfl, ⟨_, _, hparts, hmodelRead, Model.Graph.load_eq_ok.mp hg⟩,
      ⟨_, Model.map_eq_ok.mpr ⟨_, hlayoutRead, rfl⟩, rfl⟩⟩
  have hopen := Bundle.ofParts_eq_ok.mpr hopened
  have hintegral : ∀ bytes document, partBytes? sampleParts schemaPart = some bytes →
      readJson bytes = .ok document → document.Integral := by
    intro bytes document hbytes hread
    rw [hparts, Option.some.injEq] at hbytes
    rw [← hbytes, hmodelRead, Except.ok.injEq] at hread
    rw [← hread]
    exact hmodel.integral
  have htame : (Layout.ofValue plainLayout.value).document.Integral ∧
      (Layout.ofValue plainLayout.value).stored.nesting ≤ 127 := ⟨by cbv, by cbv⟩
  obtain ⟨hsame, again, hagain, hsaved⟩ := Bundle.saved_again hopen hintegral
    (fun l hl => Option.some.inj hl ▸ htame) "h"
  exact ⟨_, again, hopen, hsame, hagain, hsaved⟩

end Tabular
