/-!
# White space

The characters with the Unicode property `White_Space`, and texts without them at either end.
-/

namespace LuaTypes.Text

/-- The characters with the property `White_Space`. -/
def isBlank (c : Char) : Bool :=
  let n := c.toNat
  (9 ≤ n && n ≤ 13) || n = 0x20 || n = 0x85 || n = 0xA0 || n = 0x1680 ||
    (0x2000 ≤ n && n ≤ 0x200A) || n = 0x2028 || n = 0x2029 || n = 0x202F || n = 0x205F ||
    n = 0x3000

/-- A text without the blanks at its beginning and at its end. -/
def trim (text : List Char) : List Char :=
  ((text.dropWhile isBlank).reverse.dropWhile isBlank).reverse

/-- A string without the blanks at its beginning and at its end. -/
def trimmed (text : String) : String := String.ofList (trim text.toList)

/-- Blanks around a text that begins and ends with none are all that is taken away. -/
theorem trim_append {front back : List Char} {text : List Char}
    (hfront : ∀ c ∈ front, isBlank c) (hback : ∀ c ∈ back, isBlank c)
    (hhead : ∀ c ∈ text.head?, isBlank c = false) (hlast : ∀ c ∈ text.getLast?, isBlank c = false)
    (hne : text ≠ []) : trim (front ++ text ++ back) = text := by
  have drop (cs rest : List Char) (h : ∀ c ∈ cs, isBlank c) :
      (cs ++ rest).dropWhile isBlank = rest.dropWhile isBlank := by
    induction cs with
    | nil => rfl
    | cons c cs ih =>
      rw [List.cons_append, List.dropWhile_cons_of_pos (h c List.mem_cons_self)]
      exact ih fun d hd => h d (List.mem_cons_of_mem _ hd)
  have keep (cs : List Char) (h : ∀ c ∈ cs.head?, isBlank c = false) :
      cs.dropWhile isBlank = cs := by
    cases cs with
    | nil => rfl
    | cons c cs => exact List.dropWhile_cons_of_neg (by simp [h c (by simp)])
  have hhead' : ∀ c ∈ (text ++ back).head?, isBlank c = false := by
    cases text with
    | nil => exact absurd rfl hne
    | cons c cs => simpa using hhead
  have hrev : ∀ c ∈ text.reverse.head?, isBlank c = false := by simpa using hlast
  rw [trim, List.append_assoc, drop front _ hfront, keep _ hhead', List.reverse_append,
    drop back.reverse _ (by simpa using hback), keep _ hrev, List.reverse_reverse]

end LuaTypes.Text
