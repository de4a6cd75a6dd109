/- What a dump of a loaded document changes, and what it passes through. -/
import Tabular.Json.Printer
import Tabular.Proofs.Model.Graph

namespace Tabular.Json
variable {ms ns : Members} {key : String} {keys : List String}

/-- Two objects that have the same values under all keys but some. -/
def Members.SameBut (keys : List String) (ms ns : Members) : Prop :=
  ∀ key, key ∉ keys → ns.get? key = ms.get? key

theorem Members.SameBut.put (h : Members.SameBut keys ms ns) (hk : key ∈ keys) (v : Value) :
    Members.SameBut keys ms (ns.put key v) := by
  intro k hmem
  have hne : key ≠ k := fun heq => hmem (heq ▸ hk)
  rw [Members.get?_put, if_neg hne, h k hmem]

theorem Members.SameBut.putAll {pairs : List (String × Value)} (h : Members.SameBut keys ms ns)
    (hk : ∀ p ∈ pairs, p.1 ∈ keys) : Members.SameBut keys ms (ns.putAll pairs) := by
  intro k hmem
  have hnot : k ∉ pairs.map Prod.fst := by
    intro hin
    obtain ⟨p, hp, rfl⟩ := List.mem_map.mp hin
    exact hmem (hk p hp)
  rw [Members.get?_putAll_of_notMem hnot, h k hmem]

theorem Members.SameBut.update (h : Members.SameBut keys ms ns) (hk : key ∈ keys)
    (f : Value → Value) : Members.SameBut keys ms (ns.update key f) := by
  intro k hmem
  have hne : key ≠ k := fun heq => hmem (heq ▸ hk)
  rw [Members.get?_update, if_neg hne, h k hmem]

theorem Members.SameBut.refl (keys : List String) (ms : Members) : Members.SameBut keys ms ms :=
  fun _ _ => rfl

end Tabular.Json

namespace Tabular.Model
open Tabular.Json Tabular.Query

theorem sameBut_revisedColumn (ms : Members) :
    Members.SameBut ["dataType"] ms (revisedColumn (.obj ms)).members :=
  (Members.SameBut.refl _ ms).update (by decide) concreteType

theorem sameBut_revisedMeasure (ms : Members) :
    Members.SameBut ["expression"] ms (revisedMeasure (.obj ms)).members :=
  (Members.SameBut.refl _ ms).update (by decide) joinedLines

theorem sameBut_revisedRelationship (ms : Members) :
    Members.SameBut ["crossFilteringBehavior"] ms (revisedRelationship (.obj ms)).members := by
  rw [revisedRelationship, Value.revise]
  split
  · exact (Members.SameBut.refl _ ms).put (by decide) _
  · exact Members.SameBut.refl _ ms

theorem sameBut_revisedTable (ms : Members) :
    Members.SameBut ["columns", "partitions", "measures"] ms (revisedTable (.obj ms)).members :=
  (((Members.SameBut.refl _ ms).update (by decide) _).put (by decide) _).put (by decide) _

/-- The keys of the model that a dump may change. -/
def revisedKeys : List String :=
  ["dataAccessOptions", "defaultPowerBIDataSourceVersion", "sourceQueryCulture", "queryGroups",
    "tables", "relationships"]

theorem sameBut_revisedModel (config : Config) (ms : Members) :
    Members.SameBut revisedKeys ms (revisedModel config ms) := by
  have hconfigured : Members.SameBut revisedKeys ms (configured config ms) :=
    (Members.SameBut.refl _ ms).putAll (by simp [modelFields, revisedKeys])
  exact ((hconfigured.update (by decide) revisedGroups).update (by decide) _).update (by decide) _

theorem sameBut_revisedDocument (fresh : String) (config : Config) (ms : Members) :
    Members.SameBut ["name", "model"] ms (revisedDocument fresh config (.obj ms)).members :=
  ((Members.SameBut.refl _ ms).put (by decide) _).put (by decide) _

/-- A dump of a loaded document is that document, revised, without its null members. -/
theorem Graph.dump_of_load {fresh : String} {config : Config} {doc : Value} {g : Graph}
    (h : (Graph.load fresh config doc).result = .ok g) :
    g.dump = (revisedDocument fresh config doc).prune := (Graph.load_eq_ok.mp h).dump_eq

/-- A document as a hand may write it: with lists that are null or missing, an expression in
    lines, a column of type `any` and a table that is there twice. -/
def roughDocument : Document where
  value := .obj
    [("model", .obj
      [("tables", .arr
        [.obj
          [("name", .str "Sales"),
            ("columns", .arr
              [.obj [("name", .str "Region"), ("note", .null), ("dataType", .str "any")]]),
            ("measures", .arr
              [.obj [("name", .str "Total"), ("expression", .arr [.str "1", .str "+ 2"])]])],
          .obj [("measures", .null), ("name", .str "Sales")]]),
      ("relationships", .null),
      ("queryGroups", .arr [.obj [("folder", .str "Staging")]])])]
  keyed := by decide

theorem Graph.dump_of_load_roughDocument :
    ∃ g, (Graph.load "g" Config.default roughDocument.value).result = .ok g ∧
      g.dump = (revisedDocument "g" Config.default roughDocument.value).prune := by
  have hload : ∃ g, (Graph.load "g" Config.default roughDocument.value).result = .ok g := ⟨_, rfl⟩
  obtain ⟨g, hg⟩ := hload
  exact ⟨g, hg, Graph.dump_of_load hg⟩

example : (revisedDocument "g" Config.default roughDocument.value).prune = .obj
    [("model", .obj
      [("tables", .arr
        [.obj
          [("name", .str "Sales"),
            ("columns", .arr [.obj [("name", .str "Region"), ("dataType", .str "string")]]),
            ("measures", .arr [.obj [("name", .str "Total"), ("expression", .str "1\n+ 2")]]),
            ("partitions", .arr [])],
          .obj
            [("measures", .arr []), ("name", .str "Sales"), ("columns", .arr []),
              ("partitions", .arr [])]]),
      ("relationships", .arr []),
      ("queryGroups", .arr
        [.obj
          [("folder", .str "Staging"),
            ("annotations", .arr [remark "PBI_QueryGroupOrder" "0"])]]),
      ("dataAccessOptions", .obj
        [("legacyRedirects", .bool true), ("returnErrorValuesAsNull", .bool true)]),
      ("defaultPowerBIDataSourceVersion", .str "powerBI_V3"),
      ("sourceQueryCulture", .str "en-US")]),
    ("name", .str "g")] := rfl

end Tabular.Model
