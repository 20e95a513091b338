import Typings.TypeExpr.Docs
import Mathlib.Data.List.Chain
import Mathlib.Data.List.DropRight

/-!
Doc comments end where they should. Whatever the docs say, the mark that ends a
comment stands at the end of the comment and nowhere else, and every line of a
comment of several lines begins with a star below the first one.

A text holds no end mark if no star in it is followed by a slash, which is a
matter of neighbours alone. The escaping sees to it inside a line, and what is
put around the lines brings no star and slash together.
-/

namespace Typings

namespace Text

/-- The first piece is where the text begins, and every other one lies
somewhere in it. -/
theorem exists_pieces_eq (separates : Char → Bool) (cs : List Char) :
    ∃ first more, pieces separates cs = first :: more ∧ first <+: cs ∧
      ∀ piece ∈ more, piece <:+: cs := by
  induction cs with
  | nil => exact ⟨[], [], rfl, List.prefix_rfl, by simp⟩
  | cons c rest ih =>
      obtain ⟨first, more, hpieces, hfirst, hmore⟩ := ih
      have hlater : ∀ piece ∈ more, piece <:+: c :: rest := fun piece h =>
        (hmore piece h).trans (List.suffix_cons c rest).isInfix
      rw [pieces, hpieces]
      split
      · refine ⟨[], first :: more, rfl, List.nil_prefix,
          List.forall_mem_cons.mpr ⟨?_, hlater⟩⟩
        exact hfirst.isInfix.trans (List.suffix_cons c rest).isInfix
      · exact ⟨c :: first, more, rfl,
          List.cons_prefix_cons.mpr ⟨rfl, hfirst⟩, hlater⟩

theorem infix_of_mem_pieces {separates : Char → Bool} {cs piece : List Char}
    (h : piece ∈ pieces separates cs) :
    piece <:+: cs := by
  obtain ⟨first, more, hpieces, hfirst, hmore⟩ := exists_pieces_eq separates cs
  rw [hpieces] at h
  rcases List.mem_cons.mp h with rfl | h
  · exact hfirst.isInfix
  · exact hmore piece h

theorem length_pieces (separates : Char → Bool) (cs : List Char) :
    (pieces separates cs).length = cs.countP separates + 1 := by
  induction cs with
  | nil => rfl
  | cons c rest ih =>
      rw [pieces, List.countP_cons]
      split
      · simp_all
      · rename_i hc
        cases hpieces : pieces separates rest with
        | nil => exact absurd hpieces (pieces_ne_nil separates rest)
        | cons first more =>
            rw [hpieces] at ih
            simpa [hc] using ih

theorem separates_eq_false_of_mem_pieces {separates : Char → Bool}
    {cs piece : List Char}
    (h : piece ∈ pieces separates cs) : ∀ c ∈ piece, separates c = false := by
  induction cs generalizing piece with
  | nil =>
      rw [pieces, List.mem_singleton] at h
      simp [h]
  | cons c rest ih =>
      rw [pieces] at h
      split at h
      · rcases List.mem_cons.mp h with rfl | h
        · simp
        · exact ih h
      · rename_i hc
        cases hpieces : pieces separates rest with
        | nil => exact absurd hpieces (pieces_ne_nil separates rest)
        | cons first more =>
            rw [hpieces] at h ih
            rcases List.mem_cons.mp h with rfl | h
            · exact List.forall_mem_cons.mpr ⟨Bool.of_not_eq_true hc,
                ih List.mem_cons_self⟩
            · exact ih (List.mem_cons_of_mem _ h)

/-- A row of characters without a separator is one piece, and the separator
behind it starts the next. -/
theorem pieces_append_cons {separates : Char → Bool}
    {line : List Char} {c : Char} (hline : ∀ d ∈ line, separates d = false)
    (hc : separates c = true) (rest : List Char) :
    pieces separates (line ++ c :: rest) = line :: pieces separates rest := by
  induction line with
  | nil => simp [pieces, hc]
  | cons d line ih =>
      rw [List.forall_mem_cons] at hline
      simp [pieces, hline.1, ih hline.2]

theorem dropEndBlanks_prefix (cs : List Char) : dropEndBlanks cs <+: cs :=
  List.rdropWhile_prefix isBlank cs

/-- What is before a character that stays, stays. -/
theorem dropEndBlanks_append_cons {c : Char} (hc : isBlank c = false)
    (xs ys : List Char) :
    dropEndBlanks (xs ++ c :: ys) = xs ++ c :: dropEndBlanks ys := by
  rw [dropEndBlanks, dropEndBlanks, List.reverse_append, List.reverse_cons,
    List.append_assoc, List.dropWhile_append]
  split
  · rename_i hempty
    have hnone : ys.reverse.dropWhile isBlank = [] := List.isEmpty_iff.mp hempty
    simp [hnone, hc]
  · simp

end Text

/-- The two characters, one behind the other, are not the end mark. -/
def Apart (a b : Char) : Prop :=
  a = '*' → b ≠ '/'

instance : DecidableRel Apart :=
  fun a b => inferInstanceAs (Decidable (a = '*' → b ≠ '/'))

/-- No end mark is in the text. -/
def HasNoEnd (cs : List Char) : Prop :=
  cs.IsChain Apart

instance : DecidablePred HasNoEnd :=
  fun cs => inferInstanceAs (Decidable (cs.IsChain Apart))

theorem not_hasNoEnd (before after : List Char) :
    ¬ HasNoEnd (before ++ '*' :: '/' :: after) := by
  intro h
  obtain ⟨-, hmark, -⟩ := List.isChain_append_cons_cons.mp h
  exact hmark rfl rfl

theorem HasNoEnd.append {xs ys : List Char} (hxs : HasNoEnd xs)
    (hys : HasNoEnd ys) (h : xs.getLast? ≠ some '*' ∨ ys.head? ≠ some '/') :
    HasNoEnd (xs ++ ys) := by
  refine List.isChain_append.mpr ⟨hxs, hys, fun a ha b hb hstar hslash => ?_⟩
  subst hstar hslash
  exact h.elim (absurd ha) (absurd hb)

/-- Two end marks at which the text before the first one has
none are the same. -/
theorem HasNoEnd.eq_of_append {front before after rest : List Char}
    (hfront : HasNoEnd front) (hrest : HasNoEnd ('/' :: rest))
    (h : front ++ '*' :: '/' :: rest = before ++ '*' :: '/' :: after) :
    after = rest := by
  rcases List.append_eq_append_iff.mp h with ⟨mid, rfl, hmid⟩ | ⟨mid, rfl, hmid⟩
  · cases mid with
    | nil => simpa using hmid.symm
    | cons c mid =>
        obtain ⟨-, hmid⟩ := List.cons.inj hmid
        rw [hmid] at hrest
        exact absurd hrest (not_hasNoEnd mid after)
  · match mid, hmid with
    | [], hmid => simpa using hmid
    | [c], hmid => simp at hmid
    | c :: d :: mid, hmid =>
        simp only [List.cons_append, List.cons.injEq] at hmid
        obtain ⟨rfl, rfl, -⟩ := hmid
        exact absurd hfront (not_hasNoEnd before mid)

theorem head?_escapeCommentEnd (cs : List Char) :
    (escapeCommentEnd cs).head? = cs.head? := by
  fun_cases escapeCommentEnd cs <;> simp

/-- Escaping leaves no end mark. -/
theorem hasNoEnd_escapeCommentEnd (cs : List Char) :
    HasNoEnd (escapeCommentEnd cs) := by
  fun_induction escapeCommentEnd cs with
  | case1 rest ih =>
      have hslash : HasNoEnd ('/' :: escapeCommentEnd rest) :=
        List.isChain_cons.mpr ⟨fun d _ hstar => absurd hstar (by decide), ih⟩
      exact .cons_cons (by decide) (.cons_cons (by decide) hslash)
  | case2 c rest hmark ih =>
      refine List.isChain_cons.mpr ⟨fun d hd hstar hslash => ?_, ih⟩
      subst hstar hslash
      rw [head?_escapeCommentEnd] at hd
      obtain ⟨tail, rfl⟩ := List.head?_eq_some_iff.mp hd
      exact hmark tail rfl rfl
  | case3 => exact List.isChain_nil

/-- Escaping adds no line and takes none away. -/
theorem length_lines_escapeCommentEnd (cs : List Char) :
    (Text.lines (escapeCommentEnd cs)).length = (Text.lines cs).length := by
  rw [Text.lines, Text.lines, Text.length_pieces, Text.length_pieces,
    Nat.add_right_cancel_iff]
  fun_induction escapeCommentEnd cs with
  | case1 rest ih => simp [ih]
  | case2 c rest hmark ih => simp [List.countP_cons, ih]
  | case3 => rfl

section Comment

variable {indent : List Char} {docs : List String}

theorem hasNoEnd_of_mem_docLines {line : List Char} (h : line ∈ docLines docs) :
    HasNoEnd line := by
  obtain ⟨doc, -, hline⟩ := List.mem_flatMap.mp h
  exact List.IsChain.infix (hasNoEnd_escapeCommentEnd doc.toList)
    (Text.infix_of_mem_pieces hline)

theorem newline_not_mem_of_mem_docLines {line : List Char}
    (h : line ∈ docLines docs) : '\n' ∉ line := by
  obtain ⟨doc, -, hline⟩ := List.mem_flatMap.mp h
  intro hmem
  have hfalse := Text.separates_eq_false_of_mem_pieces hline '\n' hmem
  cases hfalse

/-- What a line of a comment holds behind its star. -/
def behindStar (line : List Char) : List Char :=
  Text.dropEndBlanks (' ' :: line)

theorem docLine_eq (indent line : List Char) :
    docLine indent line =
      indent ++ (' ' :: '*' :: behindStar line ++ ['\n']) := by
  have hstar : Text.isBlank '*' = false := by decide
  have hkept :=
    Text.dropEndBlanks_append_cons hstar (indent ++ [' ']) (' ' :: line)
  simp only [List.append_assoc, List.singleton_append] at hkept
  rw [docLine, behindStar, hkept, List.append_assoc]

theorem head?_behindStar (line : List Char) :
    ∀ c ∈ (behindStar line).head?, c = ' ' := by
  intro c hc
  obtain ⟨tail, htail⟩ := List.head?_eq_some_iff.mp hc
  have hprefix := Text.dropEndBlanks_prefix (' ' :: line)
  rw [← behindStar, htail, List.cons_prefix_cons] at hprefix
  exact hprefix.1

theorem hasNoEnd_of_forall_eq (hindent : ∀ c ∈ indent, c = ' ') :
    HasNoEnd indent := by
  rw [List.eq_replicate_of_mem hindent]
  exact List.isChain_replicate_of_rel _ (by decide)

/-- Behind a row of blanks anything may stand. -/
theorem HasNoEnd.indented {cs : List Char} (h : HasNoEnd cs)
    (hindent : ∀ c ∈ indent, c = ' ') :
    HasNoEnd (indent ++ cs) := by
  refine (hasNoEnd_of_forall_eq hindent).append h (Or.inl fun hlast => ?_)
  exact absurd (hindent '*' (List.mem_of_getLast? hlast)) (by decide)

theorem hasNoEnd_docLine (hindent : ∀ c ∈ indent, c = ' ') {line : List Char}
    (hline : HasNoEnd line) :
    HasNoEnd (docLine indent line) := by
  have hspaced : HasNoEnd (' ' :: line) :=
    List.isChain_cons.mpr ⟨fun d _ hstar => absurd hstar (by decide), hline⟩
  have hbehind : HasNoEnd (behindStar line) :=
    hspaced.prefix (Text.dropEndBlanks_prefix _)
  have hstar : HasNoEnd ('*' :: behindStar line) := by
    refine List.isChain_cons.mpr ⟨fun d hd _ => ?_, hbehind⟩
    rw [head?_behindStar line d hd]
    decide
  have hfront : HasNoEnd (' ' :: '*' :: behindStar line) :=
    .cons_cons (by decide) hstar
  rw [docLine_eq]
  exact (hfront.append (List.isChain_singleton _) (Or.inr (by decide))).indented
    hindent

/-- Lines that end in a newline can stand one below the other, and
above any other text. -/
theorem hasNoEnd_docLines_append (hindent : ∀ c ∈ indent, c = ' ')
    {lines : List (List Char)} {rest : List Char}
    (hlines : ∀ line ∈ lines, HasNoEnd line) (hrest : HasNoEnd rest) :
    HasNoEnd (lines.flatMap (docLine indent) ++ rest) := by
  induction lines with
  | nil => exact hrest
  | cons line lines ih =>
      rw [List.forall_mem_cons] at hlines
      rw [List.flatMap_cons, List.append_assoc]
      refine (hasNoEnd_docLine hindent hlines.1).append (ih hlines.2)
        (Or.inl ?_)
      rw [docLine]
      simp

/-- A comment begins and ends with its marks, and between them there is
no other end mark. -/
theorem exists_docChars_eq (hdocs : docs ≠ [])
    (hindent : ∀ c ∈ indent, c = ' ') :
    ∃ body, docChars indent docs =
      indent ++ ("/**".toList ++ (body ++ "*/\n".toList)) ∧
      HasNoEnd (indent ++ ("/**".toList ++ body)) := by
  have hlines : ∀ line ∈ docLines docs, HasNoEnd line :=
    fun line h => hasNoEnd_of_mem_docLines h
  have hempty : docs.isEmpty = false := by simpa using hdocs
  rw [docChars, hempty, if_neg (by decide)]
  split
  · rename_i line hsingle
    rw [hsingle, List.forall_mem_singleton] at hlines
    refine ⟨' ' :: (line ++ [' ']), by simp [List.append_assoc],
      HasNoEnd.indented ?_ hindent⟩
    have hline : HasNoEnd (line ++ [' ']) :=
      hlines.append (List.isChain_singleton _) (Or.inr (by decide))
    exact (by decide : HasNoEnd "/** ".toList).append hline (Or.inl (by decide))
  · refine ⟨'\n' ::
      ((docLines docs).flatMap (docLine indent) ++ (indent ++ [' '])),
      by simp [List.append_assoc], HasNoEnd.indented ?_ hindent⟩
    have hlast : HasNoEnd (indent ++ [' ']) :=
      HasNoEnd.indented (List.isChain_singleton _) hindent
    have hbody := hasNoEnd_docLines_append hindent hlines hlast
    exact (by decide : HasNoEnd "/**\n".toList).append hbody
      (Or.inl (by decide))

/-- A line that holds no newline, with one behind it, is the
first of the lines. -/
theorem lines_append_newline {line : List Char} (h : '\n' ∉ line)
    (rest : List Char) :
    Text.lines (line ++ '\n' :: rest) = line :: Text.lines rest := by
  refine Text.pieces_append_cons (fun c hc => ?_) rfl rest
  exact beq_eq_false_iff_ne.mpr fun heq => h (heq ▸ hc)

theorem newline_not_mem_of_forall_eq (hindent : ∀ c ∈ indent, c = ' ') :
    '\n' ∉ indent :=
  fun h => absurd (hindent '\n' h) (by decide)

theorem lines_flatMap_docLine (hindent : ∀ c ∈ indent, c = ' ')
    {lines : List (List Char)}
    (hlines : ∀ line ∈ lines, '\n' ∉ line) (rest : List Char) :
    Text.lines (lines.flatMap (docLine indent) ++ rest) =
      lines.map (fun line => indent ++ ' ' :: '*' :: behindStar line) ++
        Text.lines rest := by
  induction lines with
  | nil => rfl
  | cons line lines ih =>
      rw [List.forall_mem_cons] at hlines
      have hbehind : '\n' ∉ behindStar line := fun h => by
        have hmem := (Text.dropEndBlanks_prefix (' ' :: line)).subset h
        exact hlines.1 (by simpa using hmem)
      have hline : '\n' ∉ indent ++ ' ' :: '*' :: behindStar line := by
        simp [newline_not_mem_of_forall_eq hindent, hbehind]
      have hfirst :=
        lines_append_newline hline (lines.flatMap (docLine indent) ++ rest)
      rw [ih hlines.2] at hfirst
      rw [List.flatMap_cons, docLine_eq]
      simpa [List.append_assoc] using hfirst

/-- The lines of a comment of several lines: its marks stand alone, and every
other line begins with a star. Behind the last newline there is nothing. -/
theorem lines_docChars (hindent : ∀ c ∈ indent, c = ' ')
    (hmany : 1 < (docLines docs).length) :
    Text.lines (docChars indent docs) = (indent ++ "/**".toList) ::
      ((docLines docs).map (fun line => indent ++ ' ' :: '*' ::
        behindStar line) ++ [indent ++ " */".toList, []]) := by
  have hnewline := newline_not_mem_of_forall_eq hindent
  have hfirst (rest : List Char) :
      Text.lines (indent ++ ("/**\n".toList ++ rest)) =
        (indent ++ "/**".toList) :: Text.lines rest := by
    have hmark : '\n' ∉ indent ++ "/**".toList := by simp [hnewline]
    simpa using lines_append_newline hmark rest
  have hlast :
      Text.lines (indent ++ " */\n".toList) = [indent ++ " */".toList, []] := by
    have hmark : '\n' ∉ indent ++ " */".toList := by simp [hnewline]
    have hnothing : Text.lines [] = [[]] := rfl
    simpa [hnothing] using lines_append_newline hmark []
  have hempty : docs.isEmpty = false := by
    cases docs with
    | nil => simp [docLines] at hmany
    | cons => rfl
  rw [docChars, hempty, if_neg (by decide)]
  split
  · rename_i hsingle
    simp [hsingle] at hmany
  · simp only [List.append_assoc]
    rw [hfirst, lines_flatMap_docLine hindent
      (fun line h => newline_not_mem_of_mem_docLines h), hlast]

theorem length_docLines (docs : List String) :
    (docLines docs).length =
      (docs.flatMap fun doc => Text.lines doc.toList).length := by
  simp only [docLines, List.length_flatMap, length_lines_escapeCommentEnd]

end Comment

/-- Docs cannot break out of their comment. It begins with its opening mark
behind the indent and ends with its end mark and a newline, and no end mark
stands anywhere else. If the docs have more than one line, every line of the
comment between its first and its last begins with the indent and a star. -/
theorem docComment_contained {docs : List String} {indent : String}
    (hdocs : docs ≠ []) (hindent : ∀ c ∈ indent.toList, c = ' ') :
    (∃ body, docComment docs indent = indent ++ "/**" ++ body ++ "*/\n") ∧
      (∀ before after, docComment docs indent = before ++ "*/" ++ after →
        after = "\n") ∧
      (1 < (docs.flatMap fun doc => Text.lines doc.toList).length →
        ∃ first between last, Text.lines (docComment docs indent).toList =
          first :: (between ++ [last, []]) ∧
          ∀ line ∈ between, (indent ++ " *").toList <+: line) := by
  obtain ⟨body, hbody, hnoEnd⟩ := exists_docChars_eq hdocs hindent
  have htext : (docComment docs indent).toList =
      docChars indent.toList docs := by rw [docComment, String.toList_ofList]
  refine ⟨⟨String.ofList body, ?_⟩, fun before after h => ?_, fun hmany => ?_⟩
  · apply String.toList_inj.mp
    simp [htext, hbody, List.append_assoc]
  · have hchars := congrArg String.toList h
    rw [htext, hbody] at hchars
    have hnewline : HasNoEnd ['/', '\n'] := by decide
    apply String.toList_inj.mp
    exact hnoEnd.eq_of_append hnewline
      (by simpa [List.append_assoc] using hchars)
  · rw [← length_docLines] at hmany
    refine ⟨_, _, _, htext ▸ lines_docChars hindent hmany, fun line hline => ?_⟩
    obtain ⟨doc, -, rfl⟩ := List.mem_map.mp hline
    exact ⟨behindStar doc, by simp⟩

/-- Docs with end marks in them, and with a star and a slash that would be one
mark without the lines between. -/
theorem docComment_contained_marks :
    let docs := ["**/ */", "*", "/"]
    docComment docs "  " = "  /**\n   * **\\/ *\\/\n   * *\n   * /\n   */\n" ∧
      (∃ body, docComment docs "  " = "  " ++ "/**" ++ body ++ "*/\n") ∧
      (∀ before after, docComment docs "  " = before ++ "*/" ++ after →
        after = "\n") ∧
      ∃ first between last, Text.lines (docComment docs "  ").toList =
        first :: (between ++ [last, []]) ∧
        ∀ line ∈ between, ("  " ++ " *").toList <+: line := by
  intro docs
  obtain ⟨hmarks, honce, hlines⟩ := docComment_contained (by decide : docs ≠ [])
    (by simp : ∀ c ∈ "  ".toList, c = ' ')
  exact ⟨by decide, hmarks, honce, hlines (by decide)⟩

end Typings
