import CssQuery.Host
import CssQuery.Proofs.Selector.Reader.Faults
import CssQuery.Proofs.Token.Lapses
import CssQuery.Proofs.Token.Tiling

namespace CssQuery

open Text (IsBoundary byteSize)

variable {text : String} {limit : Nat} {error : SelectorError} {options : Options}

theorem Token.located_of_scan {tokens : List Token} (h : Token.scan text = .ok tokens) :
    Reader.Located (IsBoundary text) tokens := fun _ ht =>
  ((Token.scan_laid h).cut (List.mem_append_left _ ht)).start_boundary

-- Whatever is wrong with a text, the error points at one of its characters or at its end.
theorem SelectorList.isBoundary_of_ofText (h : ofText text limit = .error error) :
    IsBoundary text error.position := by
  have hwhole : text.toList = [] ++ text.toList := rfl
  have hstart : IsBoundary text 0 := Text.isBoundary_of_append hwhole
  have hfinish : IsBoundary text (byteSize text.toList) :=
    Text.isBoundary_of_append (List.append_nil _).symm
  obtain hscan | ⟨tokens, hscan, h⟩ := bind_eq_error.1 h
  · exact Token.isBoundary_of_scan hscan
  · have htokens := Token.located_of_scan hscan
    have hlist : Reader.Keeps (IsBoundary text) (Reader.selectorList
        (Reader.nestedList (byteSize text.toList) limit limit) (byteSize text.toList) tokens) :=
      Reader.keeps_selectorList hfinish (Reader.keeps_nestedList hfinish limit limit) htokens
    dsimp only at h
    split at h
    · cases h
      exact hstart
    · obtain hread | ⟨read, hread, h⟩ := bind_eq_error.1 h
      · exact hlist.error hread
      · have hrest := hlist.ok hread
        split at h
        · cases h
        · cases h
          exact Reader.located_unexpected hfinish hrest

namespace Report

theorem columnOf_of_append {front back : List Char} :
    columnOf (byteSize front) (front ++ back) = front.length := by
  have hfind : (List.range ((front ++ back).length + 1)).find?
      (fun n => byteSize ((front ++ back).take n) == byteSize front) = some front.length := by
    rw [List.find?_range_eq_some]
    refine ⟨?_, ?_, ?_⟩
    · simp
    · rw [List.mem_range, List.length_append]
      omega
    · intro n hn
      rw [Bool.not_eq_true', beq_eq_false_iff_ne]
      intro hsize
      have happend : (front ++ back).take n ++ (front ++ back).drop n = front ++ back :=
        List.take_append_drop n _
      have htake := (Text.append_inj_of_byteSize happend hsize).1
      have hlength := congrArg List.length htake
      simp only [List.length_take, List.length_append] at hlength
      omega
  rw [columnOf, hfind]

-- An error of a selector points at one of its characters or at its end, and whichever command
-- meets the error shows a caret behind as many columns as there are characters before it.
theorem caret_of_compile (h : Query.compile text options = .error error) :
    error.position ≤ text.utf8ByteSize ∧ IsBoundary text error.position ∧
    ∃ front back, text.toList = front ++ back ∧ byteSize front = error.position ∧
      columnOf error.position text.toList = front.length ∧
      (∀ style, ∃ message, (ofSelectorError style text error).stderr = message ++ "\n  " ++ text ++
        "\n  " ++ spaces front.length ++ style .bold (style .yellow "^") ++ "\n") ∧
      (∀ host : Host, options.maxNesting = ({} : Options).maxNesting →
        host.run (.parse text) = ofSelectorError host.style text error) ∧
      (∀ (host : Host) dom settings, settings.options = options →
        host.answer dom text settings = ofSelectorError host.style text error) := by
  have hread : SelectorList.ofText text options.maxNesting = .error error := map_eq_error.1 h
  have hboundary := SelectorList.isBoundary_of_ofText hread
  obtain ⟨front, back, htext, hsize⟩ := Text.isBoundary_iff.1 hboundary
  have hcolumn : columnOf error.position text.toList = front.length := by
    rw [htext, ← hsize, columnOf_of_append]
  refine ⟨?_, hboundary, front, back, htext, hsize, hcolumn, ?_, ?_, ?_⟩
  · rw [← Text.byteSize_toList, htext, Text.byteSize_append, hsize]
    exact Nat.le_add_right _ _
  · intro style
    refine ⟨style .bold (style .red (if error.isUnsupported then "unsupported:" else "error:")) ++
      " " ++ error.message, ?_⟩
    simp only [ofSelectorError, hcolumn, toString, String.append_assoc]
  · intro host hnesting
    rw [hnesting] at hread
    simp only [Host.run, hread]
  · rintro host dom settings rfl
    simp only [Host.answer, h]

theorem caret_of_compile_dangling :
    Query.compile "日本 >" {} = .error (.malformed 7 (.danglingCombinator '>')) ∧
      IsBoundary "日本 >" 7 ∧ columnOf 7 "日本 >".toList = 3 ∧
      ∃ front back, "日本 >".toList = front ++ back ∧ byteSize front = 7 ∧ front.length = 3 := by
  have h : Query.compile "日本 >" {} = .error (.malformed 7 (.danglingCombinator '>')) := by
    with_unfolding_all rfl
  have hthree : columnOf 7 "日本 >".toList = 3 := by decide
  obtain ⟨-, hboundary, front, back, htext, hsize, hcolumn, -⟩ := caret_of_compile h
  exact ⟨h, hboundary, hthree, front, back, htext, hsize, hcolumn.symm.trans hthree⟩

end Report

end CssQuery
