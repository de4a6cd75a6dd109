/- Filling the step before into literals: the texts inside them are changed, their form is not. -/
import Tabular.Proofs.Query.Reading
import Tabular.Proofs.Text.Replace
import Tabular.Query.Step

namespace Tabular.Text
variable {pattern replacement : List Char} {mark : Char}

/-- A pattern without marks may be replaced before marks are doubled or after. -/
theorem replaceChars_doubled (hpattern : pattern ≠ []) (hmark : mark ∉ pattern)
    (hreplacement : mark ∉ replacement) (cs : List Char) :
    replaceChars pattern replacement 0 (doubled mark cs) =
      doubled mark (replaceChars pattern replacement 0 cs) := by
  -- The text is cut at each mark; `before` is what has been passed since the last one.
  suffices h : ∀ before, mark ∉ before →
      replaceChars pattern replacement 0 (before ++ doubled mark cs) =
        doubled mark (replaceChars pattern replacement 0 (before ++ cs)) from
    h [] List.not_mem_nil
  induction cs with
  | nil =>
      intro before hbefore
      have hfree := notMem_replaceChars hpattern hreplacement hbefore
      change replaceChars pattern replacement 0 (before ++ []) = _
      rw [List.append_nil, doubled_of_notMem hfree]
  | cons c cs ih =>
      intro before hbefore
      rw [doubled_cons]
      by_cases hc : c = mark
      · subst hc
        have hfree := notMem_replaceChars hpattern hreplacement hbefore
        have hrest := ih [] List.not_mem_nil
        rw [List.nil_append, List.nil_append] at hrest
        rw [if_pos rfl, List.cons_append, List.singleton_append,
          replaceChars_append_cons hpattern hmark, replaceChars_cons hpattern hmark,
          replaceChars_append_cons hpattern hmark, doubled_append, doubled_of_notMem hfree,
          doubled_cons, if_pos rfl, hrest]
        rfl
      · have hstep := ih (before ++ [c]) (by simp [hbefore, Ne.symm hc])
        rw [List.append_assoc, List.append_assoc] at hstep
        rw [if_neg hc]
        exact hstep

end Tabular.Text

namespace Tabular.Query
variable {replacement : String}

theorem previousMark_ne_nil : previousMark.toList ≠ [] := by decide

theorem toList_replace (text : String) : (Text.replace previousMark replacement text).toList =
    Text.replaceChars previousMark.toList replacement.toList 0 text.toList := by
  rw [Text.replace, String.toList_ofList]

theorem replace_of_absent {text : String} (h : ¬ previousMark.toList <:+: text.toList) :
    Text.replace previousMark replacement text = text := by
  rw [Text.replace, Text.replaceChars_of_absent h, String.ofList_toList]

theorem replace_eq_self_iff (hlength : replacement.toList.length ≠ previousMark.toList.length)
    (text : String) : Text.replace previousMark replacement text = text ↔
      ¬ previousMark.toList <:+: text.toList := by
  rw [String.ext_iff, toList_replace]
  exact Text.replaceChars_eq_self_iff previousMark_ne_nil hlength

theorem replace_textLiteral (h : '"' ∉ replacement.toList) (text : String) :
    Text.replace previousMark replacement (textLiteral text) =
      textLiteral (Text.replace previousMark replacement text) := by
  have hquote : '"' ∉ previousMark.toList := by decide
  rw [String.ext_iff, toList_replace, textLiteral, textLiteral, String.toList_ofList,
    String.toList_ofList, toList_replace, Text.replaceChars_cons previousMark_ne_nil hquote,
    Text.replaceChars_append_cons previousMark_ne_nil hquote,
    Text.replaceChars_doubled previousMark_ne_nil hquote h]
  rfl

/-- What is replaced in a list is replaced in its items: the mark has no comma and no brace. -/
theorem replaceChars_listed {separator : List Char}
    (hseparator : ∀ cs, Text.replaceChars previousMark.toList replacement.toList 0
      (separator ++ cs) =
        separator ++ Text.replaceChars previousMark.toList replacement.toList 0 cs)
    (items : List (List Char)) :
    Text.replaceChars previousMark.toList replacement.toList 0
        ('\x7b' :: ((',' :: separator).intercalate items ++ ['\x7d'])) =
      '\x7b' :: ((',' :: separator).intercalate
        (items.map (Text.replaceChars previousMark.toList replacement.toList 0)) ++ ['\x7d']) := by
  have hnil : Text.replaceChars previousMark.toList replacement.toList 0 [] = [] := rfl
  rw [Text.replaceChars_cons previousMark_ne_nil (by decide),
    Text.replaceChars_append_cons previousMark_ne_nil (by decide), hnil]
  congr 2
  induction items with
  | nil => rfl
  | cons item items ih =>
      cases items with
      | nil => simp only [List.map_cons, List.map_nil, List.intercalate_singleton]
      | cons next items =>
          rw [List.intercalate_cons_cons, List.append_assoc, List.cons_append,
            Text.replaceChars_append_cons previousMark_ne_nil (by decide), hseparator, ih]
          simp only [List.map_cons, List.intercalate_cons_cons, List.append_assoc,
            List.cons_append]

theorem replace_listLiteral (quote : Bool) (items : List String) :
    Text.replace previousMark replacement (listLiteral quote items) =
      listLiteral false (items.map fun text =>
        Text.replace previousMark replacement (item quote text)) := by
  have hblank : ' ' ∉ previousMark.toList := by decide
  rw [String.ext_iff, toList_replace, toList_listLiteral, toList_listLiteral,
    replaceChars_listed (Text.replaceChars_cons previousMark_ne_nil hblank)]
  simp only [List.map_map, Function.comp_def, item, toList_replace, Bool.false_eq_true, if_false]

theorem replace_pairsLiteral (quoteKeys quoteValues : Bool) (pairs : List (String × String)) :
    Text.replace previousMark replacement (pairsLiteral quoteKeys quoteValues pairs) =
      pairsLiteral false false (pairs.map fun pair =>
        (Text.replace previousMark replacement (item quoteKeys pair.1),
          Text.replace previousMark replacement (item quoteValues pair.2))) := by
  rw [String.ext_iff, toList_replace, toList_pairsLiteral, toList_pairsLiteral,
    replaceChars_listed fun _ => rfl]
  simp only [List.map_map, Function.comp_def, ← toList_replace, replace_listLiteral, item,
    List.map_cons, List.map_nil, Bool.false_eq_true, if_false]

theorem replace_quotedList (h : '"' ∉ replacement.toList) (items : List String) :
    Text.replace previousMark replacement (listLiteral true items) =
      listLiteral true (items.map (Text.replace previousMark replacement)) := by
  rw [replace_listLiteral, listLiteral, listLiteral, List.map_map, List.map_map]
  simp only [Function.comp_def, item, if_true, Bool.false_eq_true, if_false,
    replace_textLiteral h]

/-- Values that are not quoted stay as they are, if they have no mark. -/
theorem replace_quotedPairs (h : '"' ∉ replacement.toList) {pairs : List (String × String)}
    (hvalues : ∀ pair ∈ pairs, ¬ previousMark.toList <:+: pair.2.toList) :
    Text.replace previousMark replacement (pairsLiteral true false pairs) =
      pairsLiteral true false (pairs.map fun pair =>
        (Text.replace previousMark replacement pair.1, pair.2)) := by
  have hpairs : pairs.map (fun pair =>
        (Text.replace previousMark replacement (item true pair.1),
          Text.replace previousMark replacement (item false pair.2))) =
      (pairs.map fun pair => (Text.replace previousMark replacement pair.1, pair.2)).map
        fun pair => (textLiteral pair.1, pair.2) := by
    rw [List.map_map]
    refine List.map_congr_left fun pair hpair => ?_
    simp only [Function.comp_def, item, if_true, Bool.false_eq_true, if_false,
      replace_textLiteral h, replace_of_absent (hvalues pair hpair)]
  rw [replace_pairsLiteral, hpairs, pairsLiteral, pairsLiteral, List.map_map]
  simp only [Function.comp_def, item, if_true, Bool.false_eq_true, if_false]

end Tabular.Query
