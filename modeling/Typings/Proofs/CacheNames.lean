import Typings.Download.Cache
import Typings.Proofs.Stores

/-!
The files of a cache. Their names spell the URL in base 64 without padding,
which loses nothing, so two URLs have four files, all next to each other in
the folder. A tag that has no blanks around it and no carriage return
survives its file.
-/

namespace Typings

namespace Text

/-- The number that a character of base 64 stands for. -/
def base64Value (c : Char) : Nat :=
  if c.isUpper then c.toNat - 'A'.toNat
  else if c.isLower then c.toNat - 'a'.toNat + 26
  else if c.isDigit then c.toNat - '0'.toNat + 52
  else if c = '-' then 62
  else 63

theorem base64Value_base64Digit {n : Nat} (h : n < 64) :
    base64Value (base64Digit n) = n := by
  have hall : ∀ k : Fin 64, base64Value (base64Digit k) = k := by decide
  exact hall ⟨n, h⟩

theorem base64Digit_ne_slash (n : Nat) : base64Digit n ≠ '/' := by
  have hall : ∀ k : Fin 64, base64Digit k ≠ '/' := by decide
  by_cases hn : n < 64
  · exact hall ⟨n, hn⟩
  · have hlast : base64Digit n = '_' := by
      rw [base64Digit, if_neg (by omega), if_neg (by omega), if_neg (by omega),
        if_neg (by omega)]
    rw [hlast]
    decide

/-- The bytes that a row of characters stands for. The length tells how many
the last group has. -/
def ofBase64 : List Char → List UInt8
  | a :: b :: c :: d :: rest =>
    let n := ((base64Value a * 64 + base64Value b) * 64 + base64Value c) * 64 +
      base64Value d
    .ofNat (n / 65536) :: .ofNat (n / 256 % 256) :: .ofNat (n % 256) ::
      ofBase64 rest
  | [a, b, c] =>
    let n := ((base64Value a * 64 + base64Value b) * 64 + base64Value c) / 4
    [.ofNat (n / 256), .ofNat (n % 256)]
  | [a, b] => [.ofNat ((base64Value a * 64 + base64Value b) / 16)]
  | _ => []

theorem ofNat_of_eq_toNat {n : Nat} {a : UInt8} (h : n = a.toNat) :
    UInt8.ofNat n = a := by
  rw [h, UInt8.ofNat_toNat]

/-- Base 64 without padding loses nothing. -/
theorem ofBase64_base64 (xs : List UInt8) : ofBase64 (base64 xs) = xs := by
  induction xs using base64.induct with
  | case1 a b c rest ih =>
      have ha := a.toNat_lt
      have hb := b.toNat_lt
      have hc := c.toNat_lt
      simp (disch := omega) only [base64, ofBase64, base64Value_base64Digit, ih]
      rw [ofNat_of_eq_toNat (a := a) (by omega),
        ofNat_of_eq_toNat (a := b) (by omega),
        ofNat_of_eq_toNat (a := c) (by omega)]
  | case2 a b =>
      have ha := a.toNat_lt
      have hb := b.toNat_lt
      simp (disch := omega) only [base64, ofBase64, base64Value_base64Digit]
      rw [ofNat_of_eq_toNat (a := a) (by omega),
        ofNat_of_eq_toNat (a := b) (by omega)]
  | case3 a =>
      have ha := a.toNat_lt
      simp (disch := omega) only [base64, ofBase64, base64Value_base64Digit]
      rw [ofNat_of_eq_toNat (a := a) (by omega)]
  | case4 => rfl

theorem base64_injective : Function.Injective base64 :=
  Function.LeftInverse.injective ofBase64_base64

theorem slash_notMem_base64 (xs : List UInt8) : '/' ∉ base64 xs := by
  induction xs using base64.induct with
  | case1 a b c rest ih =>
      simpa [base64, Ne.symm (base64Digit_ne_slash _)] using ih
  | case2 a b => simp [base64, Ne.symm (base64Digit_ne_slash _)]
  | case3 a => simp [base64, Ne.symm (base64Digit_ne_slash _)]
  | case4 => simp [base64]

theorem toBytes_inj {s t : String} (h : toBytes s = toBytes t) : s = t :=
  Option.some.inj (by rw [← ofBytes?_toBytes s, h, ofBytes?_toBytes])

theorem length_dropEndBlanks_le (cs : List Char) :
    (dropEndBlanks cs).length ≤ cs.length := by
  have hreverse : cs.reverse.length = cs.length := List.length_reverse
  rw [dropEndBlanks, List.length_reverse, ← hreverse]
  exact (List.dropWhile_sublist _).length_le

theorem dropEndBlanks_concat {c : Char} (hc : isBlank c = true)
    (cs : List Char) :
    dropEndBlanks (cs ++ [c]) = dropEndBlanks cs := by
  rw [dropEndBlanks, List.reverse_concat, List.dropWhile_cons_of_pos hc,
    dropEndBlanks]

/-- A text without blanks at its ends does not start with a blank, and does
not end with one. -/
theorem dropWhile_of_strip {s : String} (h : strip s = s) :
    s.toList.dropWhile isBlank = s.toList ∧
      dropEndBlanks s.toList = s.toList := by
  have hlist : dropEndBlanks (s.toList.dropWhile isBlank) = s.toList := by
    rw [← String.toList_ofList (l := dropEndBlanks _)]
    exact congrArg String.toList h
  have hlength : s.toList.length ≤ (s.toList.dropWhile isBlank).length := by
    calc s.toList.length =
      (dropEndBlanks (s.toList.dropWhile isBlank)).length := by rw [hlist]
      _ ≤ _ := length_dropEndBlanks_le _
  have hstart : s.toList.dropWhile isBlank = s.toList :=
    (List.dropWhile_suffix isBlank).eq_of_length_le hlength
  rw [hstart] at hlist
  exact ⟨hstart, hlist⟩

/-- A blank behind a text goes when the text is stripped. -/
theorem strip_append {s : String} (hne : s ≠ "") (h : strip s = s) {c : Char}
    (hc : isBlank c = true) :
    strip (s ++ String.singleton c) = s := by
  obtain ⟨hstart, hend⟩ := dropWhile_of_strip h
  have hdrop : (s.toList ++ [c]).dropWhile isBlank = s.toList ++ [c] := by
    have hcons : s.toList ≠ [] :=
      fun hnil => hne (String.toList_eq_nil_iff.mp hnil)
    rw [List.dropWhile_append, hstart, if_neg (by simpa using hcons)]
  rw [strip, String.toList_append, String.toList_singleton, hdrop,
    dropEndBlanks_concat hc, hend, String.ofList_toList]

theorem unifyNewlines_of_notMem {cs : List Char} (h : '\r' ∉ cs) :
    unifyNewlines cs = cs := by
  induction cs with
  | nil => rfl
  | cons c rest ih =>
      rw [List.mem_cons, not_or] at h
      rw [unifyNewlines, ih h.2]
      · rintro rest' rfl -
        exact h.1 rfl
      · rintro rfl
        exact h.1 rfl

end Text

namespace Cache

theorem nameFor_injective : Function.Injective nameFor := by
  intro url url' h
  exact Text.toBytes_inj (Text.base64_injective (String.ofList_inj.mp h))

/-- What is kept of a document, each in a file of its own. -/
inductive Half where
  | body
  | tag

namespace Half

/-- How the name of the file ends. -/
def suffix : Half → String
  | body => ".bin"
  | tag => ".etag"

def file (folder : Location) (url : String) : Half → Location
  | body => bodyFile folder url
  | tag => tagFile folder url

def bytes (document : String × List UInt8) : Half → List UInt8
  | body => document.2
  | tag => Text.toBytes (document.1 ++ "\n")

def name (url : String) (half : Half) : String :=
  nameFor url ++ half.suffix

/-- No two files have the same name. -/
theorem name_inj {url url' : String} {half half' : Half}
    (h : half.name url = half'.name url') :
    url = url' ∧ half = half' := by
  have hlist : (nameFor url).toList ++ half.suffix.toList =
      (nameFor url').toList ++ half'.suffix.toList := by
    rw [← String.toList_append, ← String.toList_append]
    exact congrArg String.toList h
  -- The last character tells the two kinds of files apart.
  have hlast := congrArg List.getLast? hlist
  cases half <;> cases half'
  case body.tag => simp [suffix] at hlast
  case tag.body => simp [suffix] at hlast
  all_goals exact ⟨nameFor_injective
    (String.toList_inj.mp (List.append_cancel_right hlist)), rfl⟩

theorem isPart_name (url : String) (half : Half) :
    Location.IsPart (half.name url) ∧ half.name url ≠ ".." := by
  have hlong : ∀ text : String, text.length ≤ 2 → half.name url ≠ text := by
    rintro text htext rfl
    have hsuffix : 2 < half.suffix.length := by cases half <;> decide
    rw [name, String.length_append] at htext
    omega
  refine ⟨⟨hlong "" (by decide), hlong "." (by decide), ?_⟩,
    hlong ".." (by decide)⟩
  rw [name, String.toList_append, List.mem_append, not_or, nameFor,
    String.toList_ofList]
  refine ⟨Text.slash_notMem_base64 _, ?_⟩
  cases half <;> simp [suffix]

variable {s : Store} {folder : Location} {url : String} {half : Half}

theorem file_eq : half.file folder url = { folder with
  parts := folder.parts ++ [half.name url] } := by
  have hchild := Location.child_intercalate (List.cons_ne_nil _ [])
    (List.forall_mem_singleton.mpr (isPart_name url half).1) folder
  rw [String.intercalate_singleton] at hchild
  cases half <;> exact hchild

theorem fullPath_file : s.fullPath (half.file folder url) =
    s.fullPath folder ++ [half.name url] := by
  rw [file_eq, Store.fullPath, List.foldl_append, List.foldl_cons,
    List.foldl_nil, Store.step, if_neg (isPart_name url half).2]
  rfl

theorem way_file : s.way (half.file folder url) = s.trail folder := by
  rw [file_eq]
  exact (Store.trail_eq_way _).symm

theorem fullPath_file_inj {url' : String} {half' : Half}
    (h : s.fullPath (half.file folder url) =
      s.fullPath (half'.file folder url')) :
    url = url' ∧ half = half' := by
  rw [fullPath_file, fullPath_file] at h
  exact name_inj (List.singleton_inj.mp (List.append_cancel_left h))

end Half

/-- A tag that its file gives back: no blanks around it, and no
carriage return. -/
structure IsPlainTag (tag : String) : Prop where
  trimmed : Text.strip tag = tag
  unbroken : '\r' ∉ tag.toList

theorem readTag_toBytes {tag : String} (hne : tag ≠ "") (h : IsPlainTag tag) :
    readTag (Text.toBytes (tag ++ "\n")) = .ok tag := by
  have hreturn : '\r' ∉ (tag ++ "\n").toList := by simpa using h.unbroken
  rw [readTag, Text.ofBytes?_toBytes]
  dsimp only
  rw [Text.unifyNewlines_of_notMem hreturn, String.ofList_toList]
  exact congrArg Except.ok
    (Text.strip_append hne h.trimmed (c := '\n') (by decide))

end Cache

end Typings
