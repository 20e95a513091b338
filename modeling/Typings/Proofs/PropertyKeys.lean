import Typings.TypeExpr.Printer

/-!
Property keys as they are printed. A key is read back up to what can follow it:
a bare one is a row of identifier characters, a quoted one ends at the first
quote that is not escaped. Every key is read back as what it is, so two
properties with different keys have different texts. But a key may be let
through bare with a newline at its end, and then its text runs over two lines
and names another key.
-/

namespace Typings

namespace Text

/-- The character that an escape stands for. -/
def unescape? : Char → Option Char
  | '\\' => some '\\'
  | '\'' => some '\''
  | 'n' => some '\n'
  | _ => none

/-- The text of a literal behind its opening quote, with the escapes undone, and
what follows the quote that ends it. -/
def scanQuoted : List Char → Option (List Char × List Char)
  | [] => none
  | '\'' :: rest => some ([], rest)
  | ['\\'] => none
  | '\\' :: c :: rest =>
    match unescape? c, scanQuoted rest with
    | some d, some (value, after) => some (d :: value, after)
    | _, _ => none
  | c :: rest =>
    match scanQuoted rest with
    | some (value, after) => some (c :: value, after)
    | none => none

/-- What is written for one character is read as that character. -/
theorem scanQuoted_escapeQuoted {c : Char} {cs value after : List Char}
    (h : scanQuoted cs = some (value, after)) :
    scanQuoted (escapeQuoted c ++ cs) = some (c :: value, after) := by
  rw [escapeQuoted.eq_def]
  split
  · simp [scanQuoted, unescape?, h]
  · simp [scanQuoted, unescape?, h]
  · simp [scanQuoted, unescape?, h]
  · rename_i hbackslash hquote _
    rw [List.singleton_append, scanQuoted]
    · rw [h]
    · exact hquote
    · rintro rfl rfl
      exact hbackslash rfl
    · intro d rest hc
      exact absurd hc hbackslash

theorem scanQuoted_flatMap (value rest : List Char) :
    scanQuoted (value.flatMap escapeQuoted ++ '\'' :: rest) =
      some (value, rest) := by
  induction value with
  | nil => rfl
  | cons c cs ih =>
      rw [List.flatMap_cons, List.append_assoc]
      exact scanQuoted_escapeQuoted ih

theorem toList_quote (s : String) :
    (quote s).toList = '\'' :: (s.toList.flatMap escapeQuoted ++ ['\'']) := by
  rw [quote, String.toList_ofList]

theorem newline_not_mem_quote (s : String) : '\n' ∉ (quote s).toList := by
  rw [toList_quote]
  simp [newline_not_mem_escapeQuoted]

end Text

/-- The text is a row of identifier characters that does not
begin with a digit. -/
def IsWord (cs : List Char) : Prop :=
  ∃ c rest, cs = c :: rest ∧ startsIdentifier c = true ∧
    ∀ d ∈ rest, continuesIdentifier d = true

instance : DecidablePred IsWord
  | [] => isFalse fun ⟨_, _, h, _⟩ => by cases h
  | c :: rest => decidable_of_iff
      (startsIdentifier c = true ∧ rest.all continuesIdentifier = true) <| by
      rw [List.all_eq_true]
      exact ⟨fun h => ⟨c, rest, rfl, h⟩,
        fun ⟨_, _, heq, h⟩ => by cases heq; exact h⟩

theorem continuesIdentifier_of_startsIdentifier {c : Char}
    (h : startsIdentifier c = true) :
    continuesIdentifier c = true := by
  simp only [startsIdentifier, continuesIdentifier, Char.isAlphanum,
    Bool.or_eq_true] at h ⊢
  exact h.imp_left (Or.imp_left Or.inl)

theorem IsWord.all {cs : List Char} (h : IsWord cs) :
    ∀ d ∈ cs, continuesIdentifier d = true := by
  obtain ⟨c, rest, rfl, hstart, hrest⟩ := h
  exact List.forall_mem_cons.mpr
    ⟨continuesIdentifier_of_startsIdentifier hstart, hrest⟩

theorem IsWord.newline_not_mem {cs : List Char} (h : IsWord cs) : '\n' ∉ cs :=
  fun hmem => absurd (h.all _ hmem) (by decide)

theorem identifierRest_iff {cs : List Char} : identifierRest cs = true ↔
    ∃ word, (∀ d ∈ word, continuesIdentifier d = true) ∧
      (cs = word ∨ cs = word ++ ['\n']) := by
  fun_induction identifierRest cs with
  | case1 => exact ⟨fun _ => ⟨[], by simp⟩, fun _ => rfl⟩
  | case2 => exact ⟨fun _ => ⟨[], by simp⟩, fun _ => rfl⟩
  | case3 c rest hlast ih =>
      rw [Bool.and_eq_true, ih]
      constructor
      · rintro ⟨hc, word, hword, hrest⟩
        refine ⟨c :: word, List.forall_mem_cons.mpr ⟨hc, hword⟩, ?_⟩
        rwa [List.cons_append, List.cons.injEq, List.cons.injEq, ← and_or_left,
          eq_self, true_and]
      · rintro ⟨word, hword, hcs⟩
        cases word with
        | nil =>
            rcases hcs with hcs | hcs
            · cases hcs
            · obtain ⟨rfl, rfl⟩ := List.cons.inj hcs
              exact absurd rfl (hlast rfl)
        | cons d word =>
            obtain ⟨hd, hword⟩ := List.forall_mem_cons.mp hword
            rw [List.cons_append, List.cons.injEq, List.cons.injEq,
              ← and_or_left] at hcs
            exact ⟨hcs.1 ▸ hd, word, hword, hcs.2⟩

/-- A name stands without quotes exactly if it is a word, or a
word and a newline. -/
theorem isIdentifier_iff {cs : List Char} :
    isIdentifier cs = true ↔
      ∃ word, IsWord word ∧ (cs = word ∨ cs = word ++ ['\n']) := by
  cases cs with
  | nil =>
      constructor
      · intro h
        cases h
      · rintro ⟨word, ⟨c, rest, rfl, -⟩, hcs | hcs⟩ <;> cases hcs
  | cons c rest =>
      rw [isIdentifier, Bool.and_eq_true, identifierRest_iff]
      constructor
      · rintro ⟨hc, word, hword, hrest⟩
        refine ⟨c :: word, ⟨c, word, rfl, hc, hword⟩, ?_⟩
        rwa [List.cons_append, List.cons.injEq, List.cons.injEq, ← and_or_left,
          eq_self, true_and]
      · rintro ⟨word, ⟨d, word, rfl, hd, hword⟩, hcs⟩
        rw [List.cons_append, List.cons.injEq, List.cons.injEq,
          ← and_or_left] at hcs
        exact ⟨hcs.1 ▸ hd, word, hword, hcs.2⟩

/-- What a key is read as, and what follows it. A newline directly behind a bare
key belongs to it. -/
def readKey : List Char → Option (List Char × List Char)
  | '\'' :: rest => Text.scanQuoted rest
  | cs =>
    match cs.dropWhile continuesIdentifier with
    | '\n' :: after => some (cs.takeWhile continuesIdentifier ++ ['\n'], after)
    | after => some (cs.takeWhile continuesIdentifier, after)

/-- The text cannot continue a key that stands before it. -/
def EndsKey (rest : List Char) : Prop :=
  ∃ c after, rest = c :: after ∧ (c = '?' ∨ c = ':')

/-- A row of characters of one kind, with another one behind it, is cut
off where it ends. -/
theorem span_append {p : Char → Bool} {word rest : List Char}
    (hword : ∀ d ∈ word, p d = true) (hrest : ∀ c ∈ rest.head?, p c = false) :
    (word ++ rest).takeWhile p = word ∧ (word ++ rest).dropWhile p = rest := by
  rw [List.takeWhile_append_of_pos hword, List.dropWhile_append_of_pos hword]
  cases rest with
  | nil => simp
  | cons c after =>
      have hc := hrest c rfl
      simp [hc]

theorem readKey_word {word rest : List Char} (hword : IsWord word)
    (hrest : ∀ c ∈ rest.head?, continuesIdentifier c = false)
    (hnewline : rest.head? ≠ some '\n') :
    readKey (word ++ rest) = some (word, rest) := by
  obtain ⟨htake, hdrop⟩ := span_append hword.all hrest
  obtain ⟨c, tail, rfl, hstart, -⟩ := hword
  rw [readKey.eq_def]
  split
  · rename_i heq
    obtain ⟨rfl, -⟩ := List.cons.inj heq
    cases hstart
  · rw [htake, hdrop]
    split
    · exact absurd rfl hnewline
    · rfl

theorem readKey_word_newline {word rest : List Char} (hword : IsWord word) :
    readKey (word ++ '\n' :: rest) = some (word ++ ['\n'], rest) := by
  have hrest : ∀ c ∈ ('\n' :: rest).head?, continuesIdentifier c = false := by
    simp [continuesIdentifier]
  obtain ⟨htake, hdrop⟩ := span_append hword.all hrest
  obtain ⟨c, tail, rfl, hstart, -⟩ := hword
  rw [readKey.eq_def]
  split
  · rename_i heq
    obtain ⟨rfl, -⟩ := List.cons.inj heq
    cases hstart
  · simp only [htake, hdrop]

/-- A printed key is read back, whatever the property goes on with. -/
theorem readKey_keyText (name : String) {rest : List Char}
    (hrest : EndsKey rest) :
    readKey ((keyText name).toList ++ rest) = some (name.toList, rest) := by
  obtain ⟨c, after, rfl, hc⟩ := hrest
  rw [keyText]
  split
  · rename_i hname
    obtain ⟨word, hword, heq | heq⟩ := isIdentifier_iff.mp hname
    · rw [heq]
      apply readKey_word hword
      · rintro d ⟨⟩
        rcases hc with rfl | rfl <;> decide
      · rintro ⟨⟩
        rcases hc with hc | hc <;> cases hc
    · rw [heq, List.append_assoc]
      exact readKey_word_newline hword
  · rw [Text.toList_quote, List.cons_append, List.append_assoc, readKey]
    exact Text.scanQuoted_flatMap name.toList (c :: after)

/-- What comes behind the key of a property ends the key. -/
theorem Property.exists_toList_render (p : Property) :
    ∃ rest, p.render.toList = (keyText p.name).toList ++ rest ∧
      EndsKey rest := by
  obtain ⟨name, type, optional, docs⟩ := p
  refine ⟨(if optional then "?" else "").toList ++ ": ".toList ++
    type.render.toList, ?_, ?_⟩
  · simp only [render, Property.name, String.toList_append, List.append_assoc]
  · cases optional with
    | true => exact ⟨'?', _, rfl, Or.inl rfl⟩
    | false => exact ⟨':', _, rfl, Or.inr rfl⟩

theorem Property.name_eq_of_render_eq {p q : Property}
    (h : p.render = q.render) : p.name = q.name := by
  obtain ⟨rest, hp, hrest⟩ := p.exists_toList_render
  obtain ⟨rest', hq, hrest'⟩ := q.exists_toList_render
  have hread := readKey_keyText p.name hrest
  rw [← hp, h, hq, readKey_keyText q.name hrest', Option.some.injEq,
    Prod.mk.injEq] at hread
  exact (String.toList_inj.mp hread.1).symm

/-- A printed key stands for a name: for itself if it is a word, and otherwise
for what its quotes enclose, with the escapes undone. -/
inductive KeyDenotes : List Char → List Char → Prop where
  | bare {word : List Char} (hword : IsWord word) : KeyDenotes word word
  | quoted {text name : List Char}
      (hscan : Text.scanQuoted text = some (name, [])) :
      KeyDenotes ('\'' :: text) name

/-- The name is printed on one line, as a key that stands for it. -/
structure KeyIsFaithful (name : String) : Prop where
  oneLine : '\n' ∉ (keyText name).toList
  denotes : KeyDenotes (keyText name).toList name.toList

theorem keyIsFaithful_quoted {name : String}
    (h : isIdentifier name.toList = false) : KeyIsFaithful name := by
  have htext : keyText name = Text.quote name := by simp [keyText, h]
  refine ⟨?_, ?_⟩ <;> rw [htext]
  · exact Text.newline_not_mem_quote name
  · rw [Text.toList_quote]
    exact .quoted (Text.scanQuoted_flatMap name.toList [])

/-- A name is printed faithfully, except for an identifier with a newline behind
it, which the check for identifiers lets through. Properties with another name
have other texts all the same. -/
theorem keys_faithful_iff (name : String) :
    (KeyIsFaithful name ↔ ¬ ∃ word, IsWord word ∧
        name.toList = word ++ ['\n']) ∧
      ∀ p q : Property, p.name = name → q.name ≠ name →
        p.render ≠ q.render := by
  refine ⟨⟨?_, fun hname => ?_⟩, ?_⟩
  · rintro ⟨honeLine, -⟩ ⟨word, hword, hname⟩
    have hbare : isIdentifier name.toList = true :=
      isIdentifier_iff.mpr ⟨word, hword, Or.inr hname⟩
    apply honeLine
    rw [keyText, if_pos hbare, hname]
    exact List.mem_append_right _ List.mem_cons_self
  · cases hbare : isIdentifier name.toList with
    | false => exact keyIsFaithful_quoted hbare
    | true =>
        have htext : keyText name = name := by simp [keyText, hbare]
        obtain ⟨word, hword, heq | heq⟩ := isIdentifier_iff.mp hbare
        · refine ⟨?_, ?_⟩ <;> rw [htext, heq]
          · exact hword.newline_not_mem
          · exact .bare hword
        · exact absurd ⟨word, hword, heq⟩ hname
  · rintro p q rfl hne h
    exact hne (Property.name_eq_of_render_eq h).symm

/-- With a quote in it a name ending in a newline is escaped; without, it is
printed over two lines. -/
theorem keys_faithful_iff_newline :
    KeyIsFaithful "it's\n" ∧ ¬ KeyIsFaithful "its\n" ∧
      keyText "its\n" = "its\n" ∧
      (Property.plain "its" .string).render ≠
        (Property.plain "its\n" .string).render := by
  refine ⟨(keys_faithful_iff "it's\n").1.mpr ?_,
    fun h => (keys_faithful_iff "its\n").1.mp h ?_, by decide,
    (keys_faithful_iff "its").2 _ _ rfl (by decide)⟩
  · rintro ⟨word, hword, heq⟩
    have hmem : '\'' ∈ word := by
      have hquote : '\'' ∈ word ++ ['\n'] := heq ▸ (by decide)
      simpa using hquote
    exact absurd (hword.all _ hmem) (by decide)
  · exact ⟨"its".toList,
      ⟨'i', "ts".toList, rfl, rfl, by simp [continuesIdentifier]⟩, rfl⟩

end Typings
