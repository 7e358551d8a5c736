import LuaTypes.Proofs.Text.Offsets
import LuaTypes.Text.Delimited
import Mathlib.Data.List.TakeWhile

/-!
# What the delimited literals are

A text has a value exactly when it is the value between two equal quotes, or between long brackets
of one level, where a newline directly after the opening bracket does not count. The value may be
found by taking the text apart at byte offsets, too: whatever characters it is made of, the offsets
that come up are always borders of characters.

* `Text.Delimits`: a text stands for a value;
* `Text.undelimit_eq_some_iff`: the texts with a value;
* `Text.valueByOffsets`: the value found by byte offsets;
* `Text.undelimited_exact`: the texts with a value, which the offsets lead to as well.
-/

namespace LuaTypes.Text

/-- A text stands for a value: the value between two equal quotes, or between long brackets of one
level. A newline directly after the opening bracket is not part of the value. -/
inductive Delimits : List Char → List Char → Prop
  | quotes {quote : Char} (h : quote = '"' ∨ quote = '\'') (value : List Char) :
    Delimits (quote :: (value ++ [quote])) value
  | brackets (level : Nat) {value : List Char} (h : '\n' ∉ value.head?) :
    Delimits (openingBracket level ++ value ++ closingBracket level) value
  | bracketsNewline (level : Nat) (value : List Char) :
    Delimits (openingBracket level ++ '\n' :: value ++ closingBracket level) value

/-! ### Between quotes -/

theorem beforeQuote_eq_some_iff {quote : Char} {rest value : List Char} :
    beforeQuote quote rest = some value ↔ rest = value ++ [quote] := by
  rw [beforeQuote]
  constructor
  · intro h
    split at h
    · rename_i hlast
      obtain ⟨front, rfl⟩ := List.getLast?_eq_some_iff.1 hlast
      rw [List.dropLast_concat] at h
      rw [Option.some.inj h]
    · cases h
  · rintro rfl
    rw [List.getLast?_concat, if_pos rfl, List.dropLast_concat]

/-! ### Between long brackets -/

/-- A text as equals signs and what follows the last of them. -/
theorem eq_replicate_append (rest : List Char) :
    rest = List.replicate (rest.takeWhile (· = '=')).length '=' ++ rest.dropWhile (· = '=') := by
  have hsigns : rest.takeWhile (· = '=') =
      List.replicate (rest.takeWhile (· = '=')).length '=' :=
    List.eq_replicate_of_mem fun c hc => by simpa using List.mem_takeWhile_imp hc
  rw [← hsigns, List.takeWhile_append_dropWhile]

/-- The equals signs that a text begins with are counted up to the bracket. -/
theorem takeWhile_replicate_append (level : Nat) (body : List Char) :
    (List.replicate level '=' ++ '[' :: body).takeWhile (· = '=') = List.replicate level '=' := by
  rw [List.takeWhile_append_of_pos (by simp), List.takeWhile_cons_of_neg (by decide),
    List.append_nil]

theorem dropWhile_replicate_append (level : Nat) (body : List Char) :
    (List.replicate level '=' ++ '[' :: body).dropWhile (· = '=') = '[' :: body := by
  rw [List.dropWhile_append_of_pos (by simp), List.dropWhile_cons_of_neg (by decide)]

theorem withinBrackets_replicate (level : Nat) (body : List Char) :
    withinBrackets (List.replicate level '=' ++ '[' :: body) =
      ((closingBracket level).isSuffixOf? body).map dropNewline := by
  simp only [withinBrackets, takeWhile_replicate_append, dropWhile_replicate_append,
    List.length_replicate]

theorem withinBrackets_eq_some_iff {rest value : List Char} :
    withinBrackets rest = some value ↔ ∃ level within,
      rest = List.replicate level '=' ++ '[' :: (within ++ closingBracket level) ∧
        dropNewline within = value := by
  constructor
  · intro h
    have hrest := eq_replicate_append rest
    cases hbody : rest.dropWhile (· = '=') with
    | nil => simp [withinBrackets, hbody] at h
    | cons c body =>
      by_cases hc : c = '['
      · rw [hbody, hc] at hrest
        rw [hrest, withinBrackets_replicate] at h
        obtain ⟨within, hwithin, hvalue⟩ := Option.map_eq_some_iff.1 h
        rw [List.isSuffixOf?_eq_some_iff_append_eq] at hwithin
        exact ⟨_, within, by rw [hwithin]; exact hrest, hvalue⟩
      · simp [withinBrackets, hbody, hc] at h
  · rintro ⟨level, within, rfl, rfl⟩
    rw [withinBrackets_replicate, List.isSuffixOf?_eq_some_iff_append_eq.2 rfl, Option.map_some]

/-- Dropping a newline gives a text just when the text follows a newline, or is the same and begins
with none. -/
theorem dropNewline_eq_iff {within value : List Char} :
    dropNewline within = value ↔ within = '\n' :: value ∨ within = value ∧ '\n' ∉ value.head? := by
  unfold dropNewline
  split
  · rename_i rest
    constructor
    · rintro rfl
      exact .inl rfl
    · rintro (h | ⟨rfl, h⟩)
      · exact (List.cons.inj h).2
      · exact absurd rfl h
  · rename_i hnewline
    constructor
    · rintro rfl
      refine .inr ⟨rfl, fun h => ?_⟩
      obtain ⟨rest, hrest⟩ := List.head?_eq_some_iff.1 h
      exact hnewline rest hrest
    · rintro (h | ⟨h, -⟩)
      · exact absurd h (hnewline _)
      · exact h

/-- The texts with a value are those that stand for it. -/
theorem undelimit_eq_some_iff {text value : List Char} :
    undelimit text = some value ↔ Delimits text value := by
  constructor
  · intro h
    unfold undelimit at h
    split at h
    · rw [beforeQuote_eq_some_iff] at h
      exact h ▸ .quotes (.inl rfl) value
    · rw [beforeQuote_eq_some_iff] at h
      exact h ▸ .quotes (.inr rfl) value
    · obtain ⟨level, within, rfl, hvalue⟩ := withinBrackets_eq_some_iff.1 h
      have htext : '[' :: (List.replicate level '=' ++ '[' :: (within ++ closingBracket level)) =
          openingBracket level ++ within ++ closingBracket level := by
        simp [openingBracket]
      rw [htext]
      rcases dropNewline_eq_iff.1 hvalue with rfl | ⟨rfl, hhead⟩
      · exact .bracketsNewline level value
      · exact .brackets level hhead
    · cases h
  · rintro (⟨rfl | rfl, -⟩ | ⟨level, hhead⟩ | level)
    · exact beforeQuote_eq_some_iff.2 rfl
    · exact beforeQuote_eq_some_iff.2 rfl
    · refine withinBrackets_eq_some_iff.2 ⟨level, value, ?_, ?_⟩
      · simp
      · exact dropNewline_eq_iff.2 (.inr ⟨rfl, hhead⟩)
    · refine withinBrackets_eq_some_iff.2 ⟨level, '\n' :: value, ?_, rfl⟩
      simp

/-! ### By byte offsets -/

/-- The value of a text that begins with a quote. -/
def betweenQuotes (text : String) (quote : Char) : Except Misplaced (Option String) :=
  if 2 ≤ text.utf8ByteSize ∧ text.toList.getLast? = some quote then
    (part text 1 (text.utf8ByteSize - 1)).map some
  else .ok none

/-- The value of a text that begins with a long bracket of a level. -/
def betweenLevel (text : String) (level : Nat) : Except Misplaced (Option String) :=
  let closing := closingBracket level
  if text.utf8ByteSize < level + 2 + String.utf8Len closing ∨ ¬closing <:+ text.toList then
    .ok none
  else
    (part text (level + 2) (text.utf8ByteSize - String.utf8Len closing)).map fun within =>
      some (String.ofList (dropNewline within.toList))

/-- The value of a text that begins with a bracket. The level counts characters, and serves as the
number of their bytes. -/
def betweenBrackets (text : String) : Except Misplaced (Option String) :=
  (part text 1 text.utf8ByteSize).bind fun rest =>
    let level := (rest.toList.takeWhile (· = '=')).length
    if byteAt? text (level + 1) = some '['.toUInt8 then betweenLevel text level else .ok none

/-- The value of a string literal, found by taking the text apart at byte offsets. -/
def valueByOffsets (text : String) : Except Misplaced (Option String) :=
  match text.toList with
  | '"' :: _ => betweenQuotes text '"'
  | '\'' :: _ => betweenQuotes text '\''
  | '[' :: _ => betweenBrackets text
  | _ => .ok none

theorem betweenQuotes_eq {text : String} {quote : Char} {rest : List Char}
    (h : text.toList = quote :: rest) (hquote : quote.utf8Size = 1) :
    betweenQuotes text quote = .ok ((beforeQuote quote rest).map String.ofList) := by
  have hsize : text.utf8ByteSize = String.utf8Len rest + 1 := by
    rw [← String.utf8Len_toList, h, String.utf8Len_cons, hquote]
  rw [betweenQuotes, beforeQuote]
  rcases rest.eq_nil_or_concat' with rfl | ⟨value, last, rfl⟩
  · rw [if_neg (by simp [hsize])]
    rfl
  · have hlast : (quote :: (value ++ [last])).getLast? = some last := by
      rw [← List.cons_append, List.getLast?_concat]
    rw [h, hlast, List.getLast?_concat, List.dropLast_concat]
    by_cases heq : last = quote
    · rw [heq] at h hsize ⊢
      have htwo : 2 ≤ text.utf8ByteSize := by simp [hsize, hquote]
      have hpart := part_of_toList (show text.toList = [quote] ++ value ++ [quote] from h)
      have hstart : String.utf8Len [quote] = 1 := by simp [hquote]
      have hstop : String.utf8Len ([quote] ++ value) = text.utf8ByteSize - 1 := by
        simp [hsize, hquote]
      rw [hstart, hstop] at hpart
      rw [if_pos ⟨htwo, rfl⟩, if_pos rfl, hpart]
      rfl
    · rw [if_neg (by simp [heq]), if_neg (by simp [heq])]
      rfl

theorem utf8Len_replicate {c : Char} (hc : c.utf8Size = 1) (n : Nat) :
    String.utf8Len (List.replicate n c) = n := by
  induction n with
  | zero => rfl
  | succ n ih => rw [List.replicate_succ, String.utf8Len_cons, ih, hc]

theorem utf8Len_openingBracket (level : Nat) :
    String.utf8Len (openingBracket level) = level + 2 := by
  simp only [openingBracket, String.utf8Len_cons, String.utf8Len_append, String.utf8Len_nil,
    utf8Len_replicate (show '='.utf8Size = 1 from rfl), show '['.utf8Size = 1 from rfl]

/-- A text that is no larger than what follows another one, and ends both, ends what follows. -/
theorem suffix_of_suffix_append {closing front body : List Char} (h : closing <:+ front ++ body)
    (hsize : String.utf8Len closing ≤ String.utf8Len body) : closing <:+ body := by
  rcases List.suffix_or_suffix_of_suffix h (List.suffix_append front body) with h | ⟨more, rfl⟩
  · exact h
  · have hmore : String.utf8Len more = 0 := by
      rw [String.utf8Len_append] at hsize
      omega
    rw [String.utf8Len_eq_zero.1 hmore]
    exact List.suffix_rfl

theorem betweenLevel_eq {text : String} {level : Nat} {body : List Char}
    (h : text.toList = openingBracket level ++ body) :
    betweenLevel text level =
      .ok ((((closingBracket level).isSuffixOf? body).map dropNewline).map String.ofList) := by
  have hsize : text.utf8ByteSize = level + 2 + String.utf8Len body := by
    rw [← String.utf8Len_toList, h, String.utf8Len_append, utf8Len_openingBracket]
  rw [betweenLevel]
  by_cases hsuffix : closingBracket level <:+ body
  · obtain ⟨within, rfl⟩ := hsuffix
    have hlong : ¬(text.utf8ByteSize < level + 2 + String.utf8Len (closingBracket level) ∨
        ¬closingBracket level <:+ text.toList) := by
      rw [h, not_or, not_not, hsize, String.utf8Len_append]
      exact ⟨by omega, (List.suffix_append _ _).trans (List.suffix_append _ _)⟩
    have hpart := part_of_toList (h.trans (List.append_assoc _ _ _).symm)
    have hstop : String.utf8Len (openingBracket level ++ within) =
        text.utf8ByteSize - String.utf8Len (closingBracket level) := by
      rw [hsize, String.utf8Len_append, String.utf8Len_append, utf8Len_openingBracket]
      omega
    rw [utf8Len_openingBracket, hstop] at hpart
    rw [if_neg hlong, hpart, List.isSuffixOf?_eq_some_iff_append_eq.2 rfl]
    simp [Except.map]
  · have hnone : (closingBracket level).isSuffixOf? body = none := by
      cases hfound : (closingBracket level).isSuffixOf? body with
      | none => rfl
      | some within =>
        exact absurd ⟨within, List.isSuffixOf?_eq_some_iff_append_eq.1 hfound⟩ hsuffix
    -- in a text that is long enough, what ends the text begins after the opening bracket
    have hshort : text.utf8ByteSize < level + 2 + String.utf8Len (closingBracket level) ∨
        ¬closingBracket level <:+ text.toList := by
      by_contra hcontra
      obtain ⟨hlong, hends⟩ := not_or.1 hcontra
      rw [h] at hends
      exact hsuffix (suffix_of_suffix_append (not_not.1 hends) (by omega))
    rw [if_pos hshort, hnone]
    rfl

theorem betweenBrackets_eq {text : String} {rest : List Char} (h : text.toList = '[' :: rest) :
    betweenBrackets text = .ok ((withinBrackets rest).map String.ofList) := by
  have hrest : part text 1 text.utf8ByteSize = .ok (String.ofList rest) := by
    have hpart := part_of_toList (show text.toList = ['['] ++ rest ++ [] by simp [h])
    rwa [List.singleton_append, ← h, String.utf8Len_toList] at hpart
  have hsigns := eq_replicate_append rest
  rw [betweenBrackets, hrest, withinBrackets]
  simp only [Except.bind, String.toList_ofList]
  generalize (rest.takeWhile (· = '=')).length = level at *
  generalize rest.dropWhile (· = '=') = after at *
  have htext : text.toList = '[' :: List.replicate level '=' ++ after := by
    rw [h, hsigns, List.cons_append]
  have hbyte := byteAt?_eq_some_iff htext (show '['.utf8Size = 1 from rfl)
  have hfront : String.utf8Len ('[' :: List.replicate level '=') = level + 1 := by
    rw [String.utf8Len_cons, utf8Len_replicate rfl]
    rfl
  rw [hfront] at hbyte
  cases after with
  | nil =>
    rw [if_neg (by simp [hbyte])]
    rfl
  | cons c body =>
    by_cases hc : c = '['
    · have hopening : text.toList = openingBracket level ++ body := by
        rw [htext, hc, openingBracket]
        simp
      rw [if_pos (hbyte.2 (by rw [hc]; rfl)), betweenLevel_eq hopening, hc]
      rfl
    · rw [if_neg (by simpa [hbyte] using hc)]
      split
      · rename_i heq
        exact absurd (List.cons.inj heq).1 hc
      · rfl

/-- The offsets that come up are always borders of characters, and lead to the value. -/
theorem valueByOffsets_eq (text : String) : valueByOffsets text = .ok (undelimited text) := by
  rw [valueByOffsets, undelimited]
  split
  · rename_i rest htext
    rw [htext]
    exact betweenQuotes_eq htext rfl
  · rename_i rest htext
    rw [htext]
    exact betweenQuotes_eq htext rfl
  · rename_i rest htext
    rw [htext]
    exact betweenBrackets_eq htext
  · have hnone : undelimit text.toList = none := by
      unfold undelimit
      split <;> simp_all
    rw [hnone]
    rfl

/-- A text has a value exactly when it stands for it, and the offsets at which the text is taken
apart to find the value are borders of characters, whatever the text is. -/
theorem undelimited_exact (text : String) :
    (∀ value, undelimited text = some value ↔ Delimits text.toList value.toList) ∧
      valueByOffsets text = .ok (undelimited text) := by
  refine ⟨fun value => ?_, valueByOffsets_eq text⟩
  rw [← undelimit_eq_some_iff, undelimited, Option.map_eq_some_iff]
  constructor
  · rintro ⟨value, hvalue, rfl⟩
    rwa [String.toList_ofList]
  · intro h
    exact ⟨value.toList, h, String.ofList_toList⟩

/-- In the long bracket of level two the content holds a closing bracket of level zero, a quote and
characters of two and four bytes. -/
example : undelimited "[==[\né]]\"😀]==]" = some "é]]\"😀" := by decide +kernel

end LuaTypes.Text
