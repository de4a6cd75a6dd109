/- The names of steps, read back from the lines of a query as quoted identifiers. -/
import Tabular.Proofs.Query.Reading
import Tabular.Proofs.Query.Rendering

namespace Tabular.Query
variable {chain : Chain} {numbering : Numbering} {step : Step} {previous name base : String}
  {k : Nat}

/-- Reads a quoted identifier, in which a quote is doubled as it is in a text. -/
def readIdentifier : Reader String := do
  expect ['#']
  readText

theorem readIdentifier_quotedName (name after : String) :
    readIdentifier (quotedName name ++ after).toList =
      (Text.readDoubled '"' (name.toList ++ '"' :: after.toList)).map fun (text, rest) =>
        (String.ofList text, rest) := by
  have htext : (quotedName name ++ after).toList =
      ['#'] ++ (['"'] ++ (name.toList ++ '"' :: after.toList)) := by
    simp [quotedName]
  rw [htext, readIdentifier, bind_of_read (expect_append _ _), readText,
    bind_of_read (expect_append _ _)]
  cases hread : Text.readDoubled '"' (name.toList ++ '"' :: after.toList) with
  | none => exact bind_of_none hread
  | some cut => exact bind_of_read hread

/-- A name that does not end in a quote is not read back if it has one. -/
theorem notMem_of_readIdentifier {c : Char} {cs rest : List Char} {after : String}
    (hname : name.toList = cs ++ [c]) (hc : c ≠ '"')
    (hread : readIdentifier (quotedName name ++ after).toList = some (name, rest)) :
    '"' ∉ name.toList := by
  rw [readIdentifier_quotedName, hname, List.append_assoc, List.singleton_append] at hread
  obtain ⟨⟨text, _⟩, htext, heq⟩ := Option.map_eq_some_iff.mp hread
  obtain ⟨rfl, rfl⟩ := Prod.mk.inj heq
  rw [String.toList_ofList] at hname ⊢
  rw [hname] at htext ⊢
  rw [List.mem_append, not_or]
  exact ⟨Text.notMem_of_readDoubled hc htext, fun hmem => hc (List.mem_singleton.mp hmem).symm⟩

theorem readIdentifier_of_notMem {after : String} (h : after.toList.head? ≠ some '"')
    (hname : '"' ∉ name.toList) :
    readIdentifier (quotedName name ++ after).toList = some (name, after.toList) := by
  have hread := Text.readDoubled_doubled h name.toList
  rw [Text.doubled_of_notMem hname] at hread
  simp only [readIdentifier_quotedName, hread, Option.map_some, String.ofList_toList]

theorem mem_toList_label (numbering : Numbering) (base : String) (n : Nat) :
    '"' ∈ (numbering.label base n).toList ↔ '"' ∈ base.toList := by
  rw [Numbering.label, String.toList_append, String.toList_ofList, List.mem_append, or_iff_left]
  intro hmem
  exact absurd (Nat.isDigit_of_mem_toDigits (by decide) (by decide) hmem) (by decide)

/-- A label ends in a digit. -/
theorem toList_label_eq (numbering : Numbering) (base : String) (n : Nat) :
    ∃ cs c, (numbering.label base n).toList = cs ++ [c] ∧ c ≠ '"' := by
  rcases List.eq_nil_or_concat (Nat.toDigits 10 (numbering.suffix n)) with hnil | ⟨ds, d, hds⟩
  · exact absurd hnil Nat.toDigits_ne_nil
  · rw [List.concat_eq_append] at hds
    have hmem : d ∈ Nat.toDigits 10 (numbering.suffix n) := by
      rw [hds]
      exact List.mem_append_right ds List.mem_cons_self
    have hd : d.isDigit = true := Nat.isDigit_of_mem_toDigits (by decide) (by decide) hmem
    refine ⟨base.toList ++ ds, d, ?_, fun heq => absurd hd (heq ▸ by decide)⟩
    rw [Numbering.label, String.toList_append, String.toList_ofList, hds, List.append_assoc]

theorem Chain.label_of_name (hstep : chain[k]? = some step)
    (hname : (chain.names numbering)[k]? = some name) :
    ∃ n, name = numbering.label step.baseName n := by
  have hbase : (chain.map Step.baseName)[k]? = some step.baseName := by
    rw [List.getElem?_map, hstep, Option.map_some]
  rw [Chain.names, Numbering.getElem?_names hbase, Option.some.injEq] at hname
  exact ⟨_, hname.symm⟩

/-- A reference to the step before is resolved wherever it stands in an argument. -/
theorem replace_append_previousStep (previous before behind : String) :
    Text.replace previousMark previous (before ++ previousStep ++ behind) =
      Text.replace previousMark previous before ++ quotedName previous ++
        Text.replace previousMark previous behind := by
  have hmark : previousMark.toList ≠ [] := by decide
  have htext : (before ++ previousStep ++ behind).toList =
      before.toList ++
        '#' :: ([] ++ '"' :: (previousMark.toList ++ ([] ++ '"' :: behind.toList))) := by
    simp [previousStep, quotedName]
  rw [Text.replace, htext, Text.replaceChars_append_cons hmark (by decide),
    Text.replaceChars_append_cons hmark (by decide), Text.replaceChars_of_starts hmark,
    Text.replaceChars_append_cons hmark (by decide), String.ext_iff]
  simp [Text.replace, Text.replaceChars, quotedName]

theorem intercalate_append_cons (separator text : String) (before after : List String) :
    separator.intercalate (before ++ text :: after) =
      String.join (before.map fun t => t ++ separator) ++ text ++
        String.join (after.map fun t => separator ++ t) := by
  induction before with
  | nil =>
      induction after generalizing text with
      | nil => simp
      | cons t after ih =>
          simp only [List.nil_append] at ih ⊢
          rw [String.intercalate_cons_cons, ih]
          simp [String.append_assoc]
  | cons t before ih =>
      rw [List.cons_append, String.intercalate_cons_of_ne_nil (by simp), ih]
      simp [String.append_assoc]

/-- What ends the line of a step: a comma, if another step follows. -/
def Chain.separator (chain : Chain) (k : Nat) : String := if k + 1 < chain.length then "," else ""

/-- The places at which a query names step `k`: in the line that binds it, at each reference in an
    argument of the next step, and in the last line if it is the last step. A place is a line, by
    its number, with what stands in it before the identifier and behind it. A reference is not
    followed by a further quote, which would belong to it. -/
inductive Chain.Mentions (chain : Chain) (numbering : Numbering) (k : Nat) :
    (line : Nat) → (before after : String) → Prop where
  | binding {step : Step} {previous : String} : chain[k]? = some step →
      ("" :: chain.names numbering)[k]? = some previous →
      Mentions chain numbering k (k + 1) "\t"
        (" = " ++ step.call previous ++ chain.separator k)
  | reference {next : Step} {nextName name key before behind : String}
      {earlier further : List (String × Option String)} : chain[k + 1]? = some next →
      (chain.names numbering)[k + 1]? = some nextName →
      (chain.names numbering)[k]? = some name →
      next.arguments = earlier ++ (key, some (before ++ previousStep ++ behind)) :: further →
      behind.toList.head? ≠ some '"' →
      Mentions chain numbering k (k + 2)
        ("\t" ++ quotedName nextName ++ " = " ++ next.function ++ "(" ++
          String.join (earlier.map fun arg => renderArgument name arg.2 ++ ",") ++ " " ++
          Text.replace previousMark name before)
        (Text.replace previousMark name behind ++
          String.join (further.map fun arg => "," ++ renderArgument name arg.2) ++ ")" ++
          chain.separator (k + 1))
  | result : k + 1 = chain.length → Mentions chain numbering k (chain.length + 2) "\t" ""

theorem Chain.length_names (chain : Chain) (numbering : Numbering) :
    (chain.names numbering).length = chain.length := by
  rw [Chain.names, Numbering.length_names, List.length_map]

theorem Chain.getElem?_lines_binding (hstep : chain[k]? = some step)
    (hname : (chain.names numbering)[k]? = some name)
    (hprevious : ("" :: chain.names numbering)[k]? = some previous) :
    (chain.lines numbering)[k + 1]? =
      some ("\t" ++ step.binding name previous ++ chain.separator k) := by
  have hzip : (chain.zip (chain.names numbering)).length = chain.length := by
    rw [List.length_zip, chain.length_names, min_self]
  have hk : k < chain.length := (List.getElem?_eq_some_iff.mp hstep).1
  have hbefore : ("" :: (chain.zip (chain.names numbering)).map Prod.snd)[k]? = some previous := by
    rwa [List.map_snd_zip (chain.length_names numbering).le]
  rw [Chain.lines, List.getElem?_cons_succ, List.getElem?_append_left (by
    rw [length_bindingLines, hzip]
    exact hk), getElem?_bindingLines (List.getElem?_zip_eq_some.mpr ⟨hstep, hname⟩) hbefore, hzip,
    Chain.separator]

/-- The identifier of a step stands where the query names it. -/
theorem Chain.Mentions.line_eq {line : Nat} {before after : String}
    (h : chain.Mentions numbering k line before after)
    (hname : (chain.names numbering)[k]? = some name) :
    (chain.lines numbering)[line]? = some (before ++ quotedName name ++ after) := by
  cases h with
  | binding hstep hprevious =>
      rw [Chain.getElem?_lines_binding hstep hname hprevious, Step.binding]
      simp only [String.append_assoc]
  | reference hnext hnextName hname' harguments =>
      rename_i next nextName name' key before behind earlier further
      cases hname.symm.trans hname'
      rw [Chain.getElem?_lines_binding hnext hnextName (by rwa [List.getElem?_cons_succ]),
        Step.binding, Step.call, harguments, List.map_append, List.map_cons,
        intercalate_append_cons, renderArgument, replace_append_previousStep]
      simp only [List.map_map, Function.comp_def, String.append_assoc]
  | result hlast =>
      have hlength : (bindingLines "" (chain.zip (chain.names numbering))).length =
          chain.length := by
        rw [length_bindingLines, List.length_zip, chain.length_names, min_self]
      have hend : (chain.names numbering).getLast? = some name := by
        rw [List.getLast?_eq_getElem?, chain.length_names, ← hlast, Nat.add_sub_cancel, hname]
      rw [Chain.lines, List.getElem?_cons_succ,
        List.getElem?_append_right (by rw [hlength]; exact Nat.le_succ _), hlength,
        Nat.add_sub_cancel_left, List.getElem?_cons_succ, resultLine, hend, String.append_empty]
      rfl

theorem head?_append_of_ne {cs ds : List Char} (hcs : cs.head? ≠ some '"')
    (hds : ds.head? ≠ some '"') : (cs ++ ds).head? ≠ some '"' := by
  cases cs with
  | nil => exact hds
  | cons c cs => exact hcs

theorem head?_replace {behind : String} (hbehind : behind.toList.head? ≠ some '"')
    (hname : '"' ∉ name.toList) (hne : name.toList ≠ []) :
    (Text.replace previousMark name behind).toList.head? ≠ some '"' := by
  rw [Text.replace, String.toList_ofList]
  by_cases hmark : previousMark.toList <+: behind.toList
  · obtain ⟨rest, hrest⟩ := hmark
    rw [← hrest, Text.replaceChars_of_starts (by decide)]
    cases hchars : name.toList with
    | nil => exact absurd hchars hne
    | cons c cs =>
        rw [hchars] at hname
        exact fun heq => hname (Option.some.inj heq ▸ List.mem_cons_self)
  · cases hchars : behind.toList with
    | nil => exact (Option.some_ne_none _).symm
    | cons c cs =>
        rw [hchars] at hbehind hmark
        rwa [Text.replaceChars_of_not_starts hmark, List.head?_cons]

/-- Behind the identifier of a name without quotes stands none either. -/
theorem Chain.Mentions.head?_after {line : Nat} {before after : String}
    (h : chain.Mentions numbering k line before after)
    (hname : (chain.names numbering)[k]? = some name) (hquote : '"' ∉ name.toList)
    (hne : name.toList ≠ []) : after.toList.head? ≠ some '"' := by
  cases h with
  | binding hstep hprevious => simp
  | reference hnext hnextName hname' harguments hbehind =>
      rename_i next nextName name' key before behind earlier further
      cases hname.symm.trans hname'
      simp only [String.toList_append, List.append_assoc]
      refine head?_append_of_ne (head?_replace hbehind hquote hne) ?_
      cases further <;> simp
  | result hlast => simp

/-- An identifier is read back, wherever it stands, when the name without its number has no quote,
    and only then. -/
theorem Chain.Mentions.read_iff {line : Nat} {before after : String}
    (h : chain.Mentions numbering k line before after) (hstep : chain[k]? = some step)
    (hname : (chain.names numbering)[k]? = some name) :
    (readIdentifier (quotedName name ++ after).toList = some (name, after.toList) ↔
        '"' ∉ step.baseName.toList) ∧
      ∀ rest, readIdentifier (quotedName name ++ after).toList = some (name, rest) →
        '"' ∉ step.baseName.toList := by
  obtain ⟨n, hlabel⟩ := Chain.label_of_name hstep hname
  obtain ⟨cs, c, hends, hc⟩ := toList_label_eq numbering step.baseName n
  have hbase : '"' ∈ name.toList ↔ '"' ∈ step.baseName.toList :=
    hlabel ▸ mem_toList_label numbering step.baseName n
  rw [← hlabel] at hends
  have hne : name.toList ≠ [] := by rw [hends]; simp
  rw [← hbase]
  have hback : ∀ rest, readIdentifier (quotedName name ++ after).toList = some (name, rest) →
      '"' ∉ name.toList := fun _ => notMem_of_readIdentifier hends hc
  exact ⟨⟨hback _, fun hquote => readIdentifier_of_notMem (h.head?_after hname hquote hne) hquote⟩,
    hback⟩

/-- Reads the name that the line of a step binds. -/
def readBinding (line : String) : Option String :=
  ((do
    expect ['\t']
    readIdentifier : Reader String) line.toList).map Prod.fst

/-- The names that the lines of the steps bind, where the lines are read. -/
def Chain.readNames (chain : Chain) (numbering : Numbering) : List (Option String) :=
  (((chain.lines numbering).drop 1).take chain.length).map readBinding

theorem readBinding_eq_some {after : String} :
    readBinding ("\t" ++ quotedName name ++ after) = some base ↔
      ∃ rest, readIdentifier (quotedName name ++ after).toList = some (base, rest) := by
  have htext : ("\t" ++ quotedName name ++ after).toList =
      ['\t'] ++ (quotedName name ++ after).toList := by
    simp [String.append_assoc]
  rw [readBinding, htext, bind_of_read (expect_append _ _), Option.map_eq_some_iff]
  exact ⟨fun ⟨⟨_, rest⟩, hread, heq⟩ => ⟨rest, heq ▸ hread⟩, fun ⟨rest, hread⟩ => ⟨_, hread, rfl⟩⟩

theorem Chain.exists_name (numbering : Numbering) (hk : k < chain.length) :
    ∃ name, (chain.names numbering)[k]? = some name :=
  ⟨_, List.getElem?_eq_getElem (by rwa [chain.length_names])⟩

theorem Chain.getElem?_readNames (hstep : chain[k]? = some step)
    (hname : (chain.names numbering)[k]? = some name) :
    (chain.readNames numbering)[k]? = some (some name) ↔ '"' ∉ step.baseName.toList := by
  have hk : k < chain.length := (List.getElem?_eq_some_iff.mp hstep).1
  obtain ⟨previous, hprevious⟩ : ∃ previous, ("" :: chain.names numbering)[k]? = some previous :=
    ⟨_, List.getElem?_eq_getElem (by rw [List.length_cons, chain.length_names]; omega)⟩
  have hmentions := Chain.Mentions.binding hstep hprevious
  rw [Chain.readNames, List.getElem?_map, List.getElem?_take_of_lt hk, List.getElem?_drop,
    Nat.add_comm, hmentions.line_eq hname, Option.map_some, Option.some.injEq,
    readBinding_eq_some]
  obtain ⟨hiff, honly⟩ := hmentions.read_iff hstep hname
  exact ⟨fun ⟨rest, hread⟩ => honly rest hread, fun hquote => ⟨_, hiff.mpr hquote⟩⟩

/-- The lines are read as binding the assigned names when no name of a step has a quote. -/
theorem Chain.readNames_eq_iff (chain : Chain) (numbering : Numbering) :
    chain.readNames numbering = (chain.names numbering).map some ↔
      ∀ step ∈ chain, '"' ∉ step.baseName.toList := by
  constructor
  · intro heq step hmem
    obtain ⟨k, hstep⟩ := List.mem_iff_getElem?.mp hmem
    obtain ⟨name, hname⟩ := chain.exists_name numbering (List.getElem?_eq_some_iff.mp hstep).1
    rw [← Chain.getElem?_readNames hstep hname, heq, List.getElem?_map, hname, Option.map_some]
  · intro hfree
    refine List.ext_getElem? fun k => ?_
    rcases Nat.lt_or_ge k chain.length with hk | hk
    · obtain ⟨name, hname⟩ := chain.exists_name numbering hk
      have hstep : chain[k]? = some chain[k] := List.getElem?_eq_getElem hk
      rw [(Chain.getElem?_readNames hstep hname).mpr (hfree _ (List.getElem_mem hk)),
        List.getElem?_map, hname, Option.map_some]
    · rw [List.getElem?_eq_none, List.getElem?_eq_none]
      · rwa [List.length_map, chain.length_names]
      · rw [Chain.readNames, List.length_map, List.length_take]
        exact (min_le_left _ _).trans hk

/-- Where a query names a step, the identifier is read back as the name of that step, and leaves
    what stands behind it, if the name without its number has no quote, and only then. So the lines
    bind the names that are assigned, which are distinct, when no step has a quote in its name. -/
theorem Chain.identifiers_read_iff (chain : Chain) (numbering : Numbering) :
    (chain.names numbering).length = chain.length ∧ (chain.names numbering).Nodup ∧
    (∀ (k : Nat) (step : Step) (name : String), chain[k]? = some step →
      (chain.names numbering)[k]? = some name →
      (∀ j, (chain.names numbering)[j]? = some name ↔ j = k) ∧
      ∀ (line : Nat) (before after : String), chain.Mentions numbering k line before after →
        (chain.lines numbering)[line]? = some (before ++ quotedName name ++ after) ∧
        (readIdentifier (quotedName name ++ after).toList = some (name, after.toList) ↔
          '"' ∉ step.baseName.toList)) ∧
    (chain.readNames numbering = (chain.names numbering).map some ↔
      ∀ step ∈ chain, '"' ∉ step.baseName.toList) := by
  have hnodup : (chain.names numbering).Nodup := Numbering.nodup_names numbering _
  refine ⟨chain.length_names numbering, hnodup, fun k step name hstep hname => ⟨fun j => ?_, ?_⟩,
    chain.readNames_eq_iff numbering⟩
  · constructor
    · intro hj
      have hlt := (List.getElem?_eq_some_iff.mp hj).1
      exact (List.getElem?_inj hlt hnodup).mp (hj.trans hname.symm)
    · exact fun hj => hj ▸ hname
  · intro line before after hmentions
    exact ⟨hmentions.line_eq hname, (hmentions.read_iff hstep hname).1⟩

/-- A step, and one that has it as its source. -/
def twoSteps : Chain :=
  [⟨"Json.Document", [], none, []⟩,
    ⟨"Table.FromList", [("source", some previousStep)], none, []⟩]

theorem Chain.identifiers_read_iff_twoSteps :
    (twoSteps.lines .sequential)[2]? =
        some ("\t#\"Table FromList1\" = Table.FromList( " ++ quotedName "Json Document1" ++ ")") ∧
      readIdentifier (quotedName "Json Document1" ++ ")").toList =
        some ("Json Document1", ")".toList) ∧
      twoSteps.readNames .sequential = [some "Json Document1", some "Table FromList1"] := by
  have hassigned : twoSteps.names .sequential = ["Json Document1", "Table FromList1"] := by
    decide +kernel
  have hname : (twoSteps.names .sequential)[0]? = some "Json Document1" := by rw [hassigned]; rfl
  have hnext : (twoSteps.names .sequential)[1]? = some "Table FromList1" := by rw [hassigned]; rfl
  have hplace : twoSteps.Mentions .sequential 0 2 "\t#\"Table FromList1\" = Table.FromList( "
      ")" := by
    have hreference := @Chain.Mentions.reference twoSteps .sequential 0 _ _ _ "source" "" "" [] []
      rfl hnext hname rfl (by simp)
    have hbefore : "\t" ++ quotedName "Table FromList1" ++ " = " ++ "Table.FromList" ++ "(" ++
        String.join [] ++ " " ++ Text.replace previousMark "Json Document1" "" =
          "\t#\"Table FromList1\" = Table.FromList( " := by
      decide +kernel
    have hafter : Text.replace previousMark "Json Document1" "" ++ String.join [] ++ ")" ++
        twoSteps.separator 1 = ")" := by decide +kernel
    exact hbefore ▸ hafter ▸ hreference
  obtain ⟨_, _, hplaces, hnames⟩ := Chain.identifiers_read_iff twoSteps .sequential
  obtain ⟨_, hread⟩ := hplaces 0 _ _ rfl hname
  obtain ⟨hline, hiff⟩ := hread _ _ _ hplace
  refine ⟨hline, hiff.mpr (by decide), ?_⟩
  rw [hnames.mpr (by decide), hassigned]
  rfl

/-- The quote in a name ends the identifier before the name does. -/
theorem Chain.misread_quotedStep :
    (Chain.names [⟨"F", [], some "a\"b", []⟩] .sequential)[0]? = some "a\"b1" ∧
      (Chain.lines [⟨"F", [], some "a\"b", []⟩] .sequential)[1]? =
        some ("\t" ++ quotedName "a\"b1" ++ " = F()") ∧
      readIdentifier (quotedName "a\"b1" ++ " = F()").toList =
        some ("a", "b1\" = F()".toList) := by
  refine ⟨?_, ?_, ?_⟩
  all_goals decide +kernel

end Tabular.Query
