/- Literals of lists: a text is read as a list just when it is the literal of that list. -/
import Tabular.Proofs.Model.Binding

namespace Tabular.Query
variable {α β : Type} {read : Reader α} {write : α → String} {cs rest separator : List Char}
  {a : α} {as : List α} {text : String} {texts : List String} {pairs : List (String × String)}

theorem eq_of_readEnd (h : readEnd cs = some (as, rest)) : as = [] ∧ cs = '\x7d' :: rest := by
  obtain ⟨_, _, hbrace, hpure⟩ := bind_eq_some.mp h
  obtain ⟨rfl, rfl⟩ := pure_eq_some.mp hpure
  exact ⟨rfl, eq_of_expect hbrace⟩

theorem written_text : Written readText (item true) := by
  intro cs text rest h
  obtain ⟨_, _, hquote, h⟩ := bind_eq_some.mp h
  obtain ⟨chars, _, hchars, hpure⟩ := bind_eq_some.mp h
  obtain ⟨rfl, rfl⟩ := pure_eq_some.mp hpure
  rw [eq_of_expect hquote, Text.eq_of_readDoubled hchars]
  simp [item, textLiteral]

theorem written_bare : Written readBare (item false) := by
  intro cs text rest h
  cases h
  simp [item, List.takeWhile_append_dropWhile]

/-- By induction on the bound, of which each item uses one. -/
theorem eq_of_readItems (hread : Written read write) {limit : Nat}
    (h : readItems read separator limit cs = some (as, rest)) :
    cs = further separator (fun a => (write a).toList) as rest := by
  induction limit generalizing cs as with
  | zero => cases h
  | succ limit ih =>
      rcases orElse_cases h with hend | hitem
      · obtain ⟨rfl, rfl⟩ := eq_of_readEnd hend
        rfl
      · obtain ⟨_, _, hseparator, h⟩ := bind_eq_some.mp hitem
        obtain ⟨a, _, ha, h⟩ := bind_eq_some.mp h
        obtain ⟨as, _, has, hpure⟩ := bind_eq_some.mp h
        obtain ⟨rfl, rfl⟩ := pure_eq_some.mp hpure
        rw [eq_of_expect hseparator, hread _ _ _ ha, ih has, further_cons]

/-- A list is written between braces, with a separator between its items. -/
theorem written_list {list : List α → String} (hread : Written read write)
    (hlist : ∀ as, (list as).toList =
      '\x7b' :: (separator.intercalate (as.map fun a => (write a).toList) ++ ['\x7d'])) :
    Written (readList read separator) list := by
  intro cs as rest h
  obtain ⟨_, _, hget, h⟩ := bind_eq_some.mp h
  cases hget
  obtain ⟨_, _, hbrace, h⟩ := bind_eq_some.mp h
  rw [eq_of_expect hbrace, hlist]
  rcases orElse_cases h with hitems | hend
  · obtain ⟨a, _, ha, h⟩ := bind_eq_some.mp hitems
    obtain ⟨as, _, has, hpure⟩ := bind_eq_some.mp h
    obtain ⟨rfl, rfl⟩ := pure_eq_some.mp hpure
    rw [hread _ _ _ ha, eq_of_readItems hread has, List.map_cons, intercalate_cons,
      List.flatMap_map]
    simp [further]
  · obtain ⟨rfl, rfl⟩ := eq_of_readEnd hend
    rfl

theorem written_pair {readKey readValue : Reader String} {quoteKey quoteValue : Bool}
    (hkey : Written readKey (item quoteKey)) (hvalue : Written readValue (item quoteValue)) :
    Written (readPair readKey readValue) fun pair =>
      listLiteral false [item quoteKey pair.1, item quoteValue pair.2] := by
  intro cs pair rest h
  obtain ⟨_, _, hopen, h⟩ := bind_eq_some.mp h
  obtain ⟨key, _, hk, h⟩ := bind_eq_some.mp h
  obtain ⟨_, _, hcomma, h⟩ := bind_eq_some.mp h
  obtain ⟨value, _, hv, h⟩ := bind_eq_some.mp h
  obtain ⟨_, _, hclose, hpure⟩ := bind_eq_some.mp h
  obtain ⟨rfl, rfl⟩ := pure_eq_some.mp hpure
  rw [eq_of_expect hopen, hkey _ _ _ hk, eq_of_expect hcomma, hvalue _ _ _ hv,
    eq_of_expect hclose, toList_listLiteral]
  simp [item]

/-- The texts of a literal of pairs in which both are quoted. -/
def readTextPairs : String → Option (List (String × String)) :=
  readAll (readList (readPair readText readText) [','])

theorem reads_textPairs (pairs : List (String × String)) :
    Reads (readList (readPair readText readText) [',']) (pairsLiteral true true pairs).toList
      pairs := by
  rw [toList_pairsLiteral]
  refine reads_list (fun pair _ => reads_pair (reads_textLiteral pair.1) fun rest => ?_)
    fun rest => bind_of_none (expect_of_ne (by decide) rest)
  exact reads_textLiteral pair.2 _ (by simp)

theorem readTexts_eq_some_iff : readTexts text = some texts ↔ text = listLiteral true texts := by
  constructor
  · exact eq_of_readAll (written_list written_text (toList_listLiteral true))
  · rintro rfl
    exact readTexts_listLiteral texts

theorem readTextPairs_eq_some_iff :
    readTextPairs text = some pairs ↔ text = pairsLiteral true true pairs := by
  constructor
  · exact eq_of_readAll (written_list (written_pair written_text written_text)
      (toList_pairsLiteral true true))
  · rintro rfl
    exact readAll_of_reads (reads_textPairs pairs)

/-- That the second of each pair is the name of a type. -/
def NamesTypes (pairs : List (String × String)) : Prop :=
  ∀ pair ∈ pairs, ∃ type : LoadType, pair.2 = type.name

theorem readTypes_eq_some_iff (hpairs : NamesTypes pairs) :
    readTypes text = some pairs ↔ text = pairsLiteral true false pairs := by
  constructor
  · exact eq_of_readAll (written_list (written_pair written_text written_bare)
      (toList_pairsLiteral true false))
  · rintro rfl
    refine readTypes_pairsLiteral fun pair hpair => ?_
    obtain ⟨type, htype⟩ := hpairs pair hpair
    rw [htype]
    exact Model.brace_notMem_name type

/-- A text is read as a list of texts, or of pairs of texts, just when it is the literal of that
    list, and as a list of texts with the names of types beside them just when it is their literal.
    So each literal is read back, whatever quotes, commas, braces and blanks are in its texts, and
    no two lists have the same one. -/
theorem literals_decode_uniquely :
    (∀ text texts, readTexts text = some texts ↔ text = listLiteral true texts) ∧
    (∀ text pairs, readTextPairs text = some pairs ↔ text = pairsLiteral true true pairs) ∧
    (∀ text pairs, NamesTypes pairs →
      (readTypes text = some pairs ↔ text = pairsLiteral true false pairs)) ∧
    (∀ texts texts', listLiteral true texts = listLiteral true texts' → texts = texts') ∧
    (∀ pairs pairs', pairsLiteral true true pairs = pairsLiteral true true pairs' →
      pairs = pairs') ∧
    ∀ pairs pairs', NamesTypes pairs → NamesTypes pairs' →
      pairsLiteral true false pairs = pairsLiteral true false pairs' → pairs = pairs' := by
  refine ⟨fun _ _ => readTexts_eq_some_iff, fun _ _ => readTextPairs_eq_some_iff,
    fun _ _ => readTypes_eq_some_iff, fun texts texts' heq => ?_, fun pairs pairs' heq => ?_,
    fun pairs pairs' hpairs hpairs' heq => ?_⟩
  · have hread := readTexts_eq_some_iff.mpr heq
    exact Option.some.inj ((readTexts_listLiteral texts).symm.trans hread)
  · have hread := readTextPairs_eq_some_iff.mpr heq
    exact Option.some.inj ((readTextPairs_eq_some_iff.mpr rfl).symm.trans hread)
  · have hread := (readTypes_eq_some_iff hpairs').mpr heq
    exact Option.some.inj (((readTypes_eq_some_iff hpairs).mpr rfl).symm.trans hread)

/-- The text of a type's name, a quote and a comma is not taken for two texts. -/
theorem literals_decode_uniquely_awkwardPairs :
    NamesTypes [("\", type any", "type text"), ("\x7d", "Int64.Type")] ∧
      readTypes "\x7b\x7b\"\"\", type any\", type text\x7d,\x7b\"\x7d\", Int64.Type\x7d\x7d" =
        some [("\", type any", "type text"), ("\x7d", "Int64.Type")] := by
  have hpairs : NamesTypes [("\", type any", "type text"), ("\x7d", "Int64.Type")] := by
    intro pair hpair
    rcases List.mem_cons.mp hpair with rfl | hpair
    · exact ⟨.text, rfl⟩
    · rw [List.mem_singleton.mp hpair]
      exact ⟨.int64, rfl⟩
  obtain ⟨-, -, htypes, -⟩ := literals_decode_uniquely
  exact ⟨hpairs, (htypes _ _ hpairs).mpr (by decide +kernel)⟩

end Tabular.Query
