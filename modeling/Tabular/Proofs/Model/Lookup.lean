/- What looking an entity up by its key finds, before and after an insertion. -/
import Mathlib.Data.Sym.Sym2
import Tabular.Model.Graph
import Tabular.Proofs.Model.First

namespace Tabular.Model
variable {σ κ α : Type} {a : α} {fault : Fault} {g g' : Graph} {t : Table} {name : String}

/-- A kind of entity that is looked up by its key. A name that is no key may be given to several
    entities; keys that are the same find the same entity. -/
structure Kind (σ κ α : Type) where
  lookup : σ → κ → Except Fault α
  IsKey : κ → Prop
  Same : κ → κ → Prop

/-- What an insertion of an entity under a key does: it fails just when the key is present, and
    otherwise the key finds the entity and all other keys find what they have found before. -/
structure Kind.Inserts (K : Kind σ κ α) (s : σ) (key : κ) (entity : α) (result : Outcome σ) :
    Prop where
  fails_iff : (∃ failure, result = .error failure) ↔ K.IsKey key ∧ ∃ a, K.lookup s key = .ok a
  finds : ∀ s', result = .ok s' → K.IsKey key →
    ∀ key', K.Same key key' → K.lookup s' key' = .ok entity
  keeps : ∀ s', result = .ok s' →
    ∀ key', ¬ K.Same key key' → K.lookup s' key' = K.lookup s key'

/-- An entity is inserted by putting it at the end of a list, unless its key finds one there. -/
theorem Kind.inserts_of_append {K : Kind σ κ α} {list : σ → List α} {names : κ → α → Bool}
    {absent : σ → κ → Fault} {s s' : σ} {key : κ} {taken : Prop} [Decidable taken]
    (hlookup : ∀ s key, K.lookup s key = found (list s) (names key) (absent s key))
    (hnames : ∀ key', names key' a = true ↔ K.Same key key')
    (hsame : ∀ key', K.Same key key' → names key' = names key) (hself : K.Same key key)
    (htaken : taken ↔ K.IsKey key ∧ (list s).any (names key) = true)
    (hlist : list s' = list s ++ [a]) (habsent : absent s' = absent s) :
    K.Inserts s key a (if taken then .error ⟨fault, s⟩ else .ok s') where
  fails_iff := by
    rw [hlookup, exists_found, ← htaken]
    split
    · rename_i h
      exact iff_of_true ⟨_, rfl⟩ h
    · rename_i h
      exact iff_of_false (fun ⟨_, heq⟩ => nomatch heq) h
  finds := by
    intro s'' heq hkey key' hsame'
    split at heq
    · cases heq
    · rename_i hfree
      cases heq
      rw [hlookup, hlist, hsame key' hsame']
      refine found_append (Bool.eq_false_iff.mpr fun hany => ?_) ((hnames key).mpr hself)
      exact hfree (htaken.mpr ⟨hkey, hany⟩)
  keeps := by
    intro s'' heq key' hother
    split at heq
    · cases heq
    · cases heq
      rw [hlookup, hlookup, hlist, habsent]
      exact found_append_of_not (Bool.eq_false_iff.mpr fun h => hother ((hnames key').mp h))

def tableKind : Kind Graph String Table := ⟨Graph.table, fun _ => True, Eq⟩

/-- Columns of a table: any number of them may have a blank name. -/
def columnKind : Kind Table String Column := ⟨Table.column, fun name => name ≠ "", Eq⟩

def measureKind : Kind Table String Measure := ⟨Table.measure, fun _ => True, Eq⟩

/-- Relationships, by the two tables that they join, in either order. -/
def relationshipKind : Kind Graph (String × String) Relationship :=
  ⟨fun g tables => g.relationship tables.1 tables.2, fun _ => True,
    fun tables tables' => s(tables.1, tables.2) = s(tables'.1, tables'.2)⟩

theorem Graph.table_eq_found (g : Graph) (name : String) :
    g.table name = found g.tables (fun t => t.name == name) (.missing .table name none) := by
  rw [Graph.table, found]
  cases g.tables.find? _ <;> rfl

theorem Table.column_eq_found (t : Table) (name : String) : t.column name =
    found t.columns (fun c => c.name == name) (.missing .column name (some t.name)) := by
  rw [Table.column, found]
  cases t.columns.find? _ <;> rfl

theorem Table.measure_eq_found (t : Table) (name : String) : t.measure name =
    found t.measures (fun m => m.name == name) (.missing .measure name (some t.name)) := by
  rw [Table.measure, found]
  cases t.measures.find? _ <;> rfl

theorem Graph.relationship_eq_found (g : Graph) (a b : String) : g.relationship a b =
    found g.relationships (fun r => r.connects a b)
      (.missing .relationship (pairName a b) none) := by
  rw [Graph.relationship, found]
  cases g.relationships.find? _ <;> rfl

theorem Graph.insertTable_inserts (g : Graph) (t : Table) :
    tableKind.Inserts g t.name t (g.insertTable t) :=
  Kind.inserts_of_append Graph.table_eq_found (fun _ => beq_iff_eq)
    (fun _ h => h ▸ rfl) rfl (true_and _ ▸ Iff.rfl) rfl rfl

theorem Table.insertColumn_inserts (t : Table) (c : Column) :
    columnKind.Inserts t c.name c (t.insertColumn c) :=
  Kind.inserts_of_append Table.column_eq_found (fun _ => beq_iff_eq)
    (fun _ h => h ▸ rfl) rfl Iff.rfl rfl rfl

theorem Table.newMeasure_inserts (t : Table) (tag name : String) :
    measureKind.Inserts t name (.fresh tag name) (t.newMeasure tag name) :=
  Kind.inserts_of_append Table.measure_eq_found (fun _ => beq_iff_eq)
    (fun _ h => h ▸ rfl) rfl (true_and _ ▸ Iff.rfl) rfl rfl

theorem Relationship.connects_iff (r : Relationship) (a b : String) :
    r.connects a b = true ↔ s(r.source.table, r.target.table) = s(a, b) := by
  simp only [Relationship.connects, Bool.or_eq_true, Bool.and_eq_true, beq_iff_eq, Sym2.eq_iff]

theorem Relationship.connects_congr {a b a' b' : String} (h : s(a, b) = s(a', b')) :
    (fun r : Relationship => r.connects a' b') = fun r => r.connects a b := by
  funext r
  rw [Bool.eq_iff_iff, Relationship.connects_iff, Relationship.connects_iff, h]

theorem Graph.newRelationship_inserts (g : Graph) (name : String) (source : Endpoint)
    (table : String) (column : Option String) :
    relationshipKind.Inserts g (source.table, table)
      (.fresh name source ⟨table, column.getD source.column⟩)
      (g.newRelationship name source table column) :=
  Kind.inserts_of_append (fun g tables => g.relationship_eq_found tables.1 tables.2)
    (fun tables => Relationship.connects_iff _ tables.1 tables.2)
    (fun _ h => Relationship.connects_congr h) rfl (true_and _ ▸ Iff.rfl) rfl rfl

/-- Changing a table of a name changes what this name finds, and what no other finds. -/
theorem Graph.editTable_cases (ht : g.table name = .ok t) (op : Table → Outcome Table) :
    (∃ failure failure', op t = .error failure ∧ g.editTable name op = .error failure') ∨
      ∃ t' g', op t = .ok t' ∧ g.editTable name op = .ok g' ∧
        (t'.name = t.name → g'.table name = .ok t' ∧
          ∀ other, other ≠ name → g'.table other = g.table other) := by
  rw [Graph.table_eq_found, found_eq_ok] at ht
  obtain ⟨i, hfirst⟩ := ht
  rw [Graph.editTable, editFirst_of_firstAt hfirst]
  cases hop : op t with
  | error failure => exact Or.inl ⟨failure, _, rfl, rfl⟩
  | ok t' =>
      refine Or.inr ⟨t', _, rfl, rfl, fun hsame => ⟨?_, fun other hother => ?_⟩⟩
      · rw [Graph.table_eq_found]
        exact found_eq_ok.mpr ⟨i, hfirst.set (by rw [hsame])⟩
      · have hne : (t.name == other) = false := by
          rw [beq_eq_false_iff_ne, eq_of_beq hfirst.test]
          exact hother.symm
        rw [Graph.table_eq_found, Graph.table_eq_found]
        exact found_set hfirst.2 hne (hsame ▸ hne)

/-- Entities of the tables of a model, by the name of the table and their keys there. -/
def Kind.within (K : Kind Table κ α) : Kind Graph (String × κ) α where
  lookup g key := g.table key.1 >>= fun t => K.lookup t key.2
  IsKey key := K.IsKey key.2
  Same key key' := key.1 = key'.1 ∧ K.Same key.2 key'.2

theorem Kind.lookup_within (K : Kind Table κ α) (h : g.table name = .ok t) (key : κ) :
    K.within.lookup g (name, key) = K.lookup t key := by
  change (g.table name >>= fun t => K.lookup t key) = K.lookup t key
  rw [h]
  rfl

/-- An insertion into a table is one into the model, which finds entities of other tables as
    before. -/
theorem Kind.Inserts.within {K : Kind Table κ α} {key : κ} {op : Table → Outcome Table}
    (h : K.Inserts t key a (op t)) (ht : g.table name = .ok t)
    (hop : ∀ t', op t = .ok t' → t'.name = t.name) :
    K.within.Inserts g (name, key) a (g.editTable name op) := by
  rcases Graph.editTable_cases ht op with
    ⟨failure, failure', hfailure, hedit⟩ | ⟨t', g', ht', hedit, hg'⟩
  · refine ⟨?_, fun g' heq => ?_, fun g' heq => ?_⟩
    · rw [K.lookup_within ht, hedit]
      exact iff_of_true ⟨failure', rfl⟩ (h.fails_iff.mp ⟨failure, hfailure⟩)
    · exact nomatch hedit.symm.trans heq
    · exact nomatch hedit.symm.trans heq
  · obtain ⟨htable, hothers⟩ := hg' (hop t' ht')
    refine ⟨?_, ?_, ?_⟩
    · rw [K.lookup_within ht, hedit]
      refine iff_of_false (fun ⟨_, heq⟩ => nomatch heq) fun hpresent => ?_
      obtain ⟨failure, hfailure⟩ := h.fails_iff.mpr hpresent
      exact nomatch hfailure.symm.trans ht'
    · rintro _ heq hkey ⟨_, key'⟩ ⟨rfl, hsame⟩
      cases hedit.symm.trans heq
      rw [K.lookup_within htable]
      exact h.finds t' ht' hkey key' hsame
    · rintro _ heq ⟨other, key'⟩ hnot
      cases hedit.symm.trans heq
      by_cases hother : other = name
      · subst hother
        rw [K.lookup_within ht, K.lookup_within htable]
        exact h.keeps t' ht' key' fun hsame => hnot ⟨rfl, hsame⟩
      · exact congrArg (· >>= fun t => K.lookup t key') (hothers other hother)

end Tabular.Model
