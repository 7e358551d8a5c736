import LuaTypes.Module.Registry
import Mathlib.Data.List.Basic

/-!
# Spellings of a module

The path of a file and what a program writes to require it lead to the name of the module in ways
of their own: one takes a path apart at its slashes and looks for an extension in the last segment,
the other turns separators and dots into slashes in the whole text. On segments that hold nothing
which means something to either of them, both put the same name together.

* `Module.IsSegment`: what may stand between the separators of a path;
* `Module.nameOfFile_append_extension`, `Module.nameOfFile_here`: names of files;
* `Module.bare`, `Module.nameOfRequest_of_bare`: names in requests;
* `Module.Spells`, `Module.requested_of_spells`: spellings by which a program asks for a module;
* `Module.Locates`, `Module.nameOf_of_locates`: paths by which its file is registered.
-/

namespace LuaTypes.Module

/-- What may stand between the separators of a path: it holds none of them, is not empty, begins
with neither a blank nor a dot and does not end with a blank. -/
structure IsSegment (segment : List Char) : Prop where
  ne_nil : segment ≠ []
  no_slash : '/' ∉ segment
  no_backslash : '\\' ∉ segment
  head : ∀ c ∈ segment.head?, Text.isBlank c = false ∧ c ≠ '.'
  last : ∀ c ∈ segment.getLast?, Text.isBlank c = false

/-! ### Segments with separators between them -/

section Intercalate

variable {separator : List Char} {segments : List (List Char)}

theorem intercalate_cons (segment : List Char) (rest : List (List Char)) :
    separator.intercalate (segment :: rest) = segment ++ rest.flatMap (separator ++ ·) := by
  induction rest generalizing segment with
  | nil => simp
  | cons next rest ih => simp [List.intercalate_cons_cons, ih]

theorem intercalate_concat (hne : segments ≠ []) (last : List Char) :
    separator.intercalate (segments ++ [last]) =
      separator.intercalate segments ++ separator ++ last := by
  obtain ⟨segment, rest, rfl⟩ := List.exists_cons_of_ne_nil hne
  simp [intercalate_cons]

/-- What is put behind the last segment is put behind all. -/
theorem intercalate_concat_append (rest : List (List Char)) (last more : List Char) :
    separator.intercalate (rest ++ [last ++ more]) =
      separator.intercalate (rest ++ [last]) ++ more := by
  rcases eq_or_ne rest [] with rfl | hrest
  · simp
  · simp [intercalate_concat hrest]

theorem map_intercalate (f : Char → Char) :
    (separator.intercalate segments).map f =
      (separator.map f).intercalate (segments.map (List.map f)) := by
  cases segments with
  | nil => rfl
  | cons segment rest => simp [intercalate_cons, List.map_flatMap, List.flatMap_map]

theorem map_replace_of_not_mem {a b : Char} {text : List Char} (h : a ∉ text) :
    text.map (fun c => if c = a then b else c) = text := by
  have hkeep : ∀ c ∈ text, (if c = a then b else c) = id c := by
    intro c hc
    refine if_neg ?_
    rintro rfl
    exact h hc
  rw [List.map_congr_left hkeep, List.map_id]

/-- Where a map leaves the segments alone, it acts on what stands between them. -/
theorem map_intercalate_of_map_eq {f : Char → Char}
    (h : ∀ segment ∈ segments, segment.map f = segment) :
    (separator.intercalate segments).map f = (separator.map f).intercalate segments := by
  rw [map_intercalate, List.map_congr_left (g := id) h, List.map_id]

theorem not_mem_intercalate {c : Char} (hseparator : c ∉ separator)
    (h : ∀ segment ∈ segments, c ∉ segment) : c ∉ separator.intercalate segments := by
  cases segments with
  | nil => exact List.not_mem_nil
  | cons segment rest =>
    rw [intercalate_cons, List.mem_append, List.mem_flatMap]
    rintro (hc | ⟨other, hother, hc⟩)
    · exact h segment List.mem_cons_self hc
    · rcases List.mem_append.1 hc with hc | hc
      · exact hseparator hc
      · exact h other (List.mem_cons_of_mem _ hother) hc

/-- Segments that are not empty begin as the first of them does. -/
theorem head?_intercalate {P : Char → Prop}
    (h : ∀ segment ∈ segments, segment ≠ [] ∧ ∀ c ∈ segment.head?, P c) :
    ∀ c ∈ (separator.intercalate segments).head?, P c := by
  cases segments with
  | nil => nofun
  | cons segment rest =>
    obtain ⟨hsegment, hhead⟩ := h segment List.mem_cons_self
    rwa [intercalate_cons, List.head?_append_of_ne_nil _ hsegment]

/-- Segments that are not empty end as the last of them does. -/
theorem getLast?_intercalate {P : Char → Prop}
    (h : ∀ segment ∈ segments, segment ≠ [] ∧ ∀ c ∈ segment.getLast?, P c) :
    ∀ c ∈ (separator.intercalate segments).getLast?, P c := by
  rcases List.eq_nil_or_concat' segments with rfl | ⟨rest, last, rfl⟩
  · nofun
  · obtain ⟨hlast, hend⟩ := h last (by simp)
    rcases eq_or_ne rest [] with rfl | hrest
    · simpa using hend
    · rwa [intercalate_concat hrest, List.getLast?_append_of_ne_nil _ hlast]

end Intercalate

/-! ### Names of files -/

theorem stem_append_extension {segment : List Char} (h : segment ≠ []) :
    stem (segment ++ extension) = segment := by
  simp [stem, extension, h]

theorem append_extension_ne {path other : List Char} (h : 'a' ∉ other.getLast?) :
    path ++ extension ≠ other := by
  rintro rfl
  simp [extension] at h

theorem stemLast_cons (segment : List Char) {rest : List (List Char)} (h : rest ≠ []) :
    stemLast (segment :: rest) = segment :: stemLast rest := by
  obtain ⟨next, rest, rfl⟩ := List.exists_cons_of_ne_nil h
  rfl

theorem stemLast_concat (rest : List (List Char)) {last : List Char} (h : last ≠ ['.', '.']) :
    stemLast (rest ++ [last]) = rest ++ [stem last] := by
  induction rest with
  | nil => simp [stemLast, h]
  | cons segment rest ih =>
    rw [List.cons_append, stemLast_cons segment (by simp), ih, List.cons_append]

theorem isProper_of_head {segment : List Char} (hne : segment ≠ []) (h : '.' ∉ segment.head?) :
    isProper segment = true := by
  cases segment with
  | nil => exact absurd rfl hne
  | cons c rest =>
    have hc : c ≠ '.' := by simpa using h
    simp [isProper, hc]

/-- A step to the same directory in front of a path does not change its name. -/
theorem nameOfFile_here (path : List Char) : nameOfFile ('.' :: '/' :: path) = nameOfFile path := by
  have hsplit : (['.'] ++ '/' :: path).splitOn '/' = ['.'] :: path.splitOn '/' :=
    List.splitOn_append_cons_self_of_not_mem (by decide) path
  rw [List.singleton_append] at hsplit
  simp [nameOfFile, steps, hsplit]

/-- An extension belongs to the last of the segments of a path. -/
theorem steps_append_extension {rest : List (List Char)} {last : List Char}
    (hslash : ∀ segment ∈ rest ++ [last], '/' ∉ segment)
    (hproper : ∀ segment ∈ rest, isProper segment = true) :
    steps (joined (rest ++ [last]) ++ extension) = rest ++ [last ++ extension] := by
  have hsplit :
      (joined (rest ++ [last]) ++ extension).splitOn '/' = rest ++ [last ++ extension] := by
    rw [joined, ← intercalate_concat_append]
    refine List.splitOn_intercalate '/' ?_ (by simp)
    intro segment hsegment
    rcases List.mem_append.1 hsegment with hsegment | hsegment
    · exact hslash segment (List.mem_append_left _ hsegment)
    · cases List.mem_singleton.1 hsegment
      simpa [extension] using hslash last (by simp)
  rw [steps, hsplit, List.filter_eq_self]
  intro segment hsegment
  rcases List.mem_append.1 hsegment with hsegment | hsegment
  · have hkept := hproper segment hsegment
    simp only [isProper, Bool.and_eq_true] at hkept
    simpa using hkept.1
  · cases List.mem_singleton.1 hsegment
    have hhere : last ++ extension ≠ ['.'] := append_extension_ne (by decide)
    simpa [extension, -decide_not] using decide_eq_true hhere

/-- The name of a file is its path without the extension, if all that stands between the slashes
names something. -/
theorem nameOfFile_append_extension {segments : List (List Char)} (hne : segments ≠ [])
    (h : ∀ segment ∈ segments, segment ≠ [] ∧ '/' ∉ segment ∧ '.' ∉ segment.head?) :
    nameOfFile (joined segments ++ extension) = (joined segments).map slash := by
  have hproper : ∀ segment ∈ segments, isProper segment = true := by
    intro segment hsegment
    obtain ⟨hsome, -, hdot⟩ := h segment hsegment
    exact isProper_of_head hsome hdot
  obtain ⟨rest, last, rfl⟩ := (List.eq_nil_or_concat' segments).resolve_left hne
  have hsteps := steps_append_extension (fun segment hsegment => (h segment hsegment).2.1)
    fun segment hsegment => hproper segment (List.mem_append_left _ hsegment)
  have hlast : last ≠ [] := (h last (by simp)).1
  rw [nameOfFile, hsteps, stemLast_concat _ (append_extension_ne (by decide)),
    stem_append_extension hlast, List.filter_eq_self.2 hproper]

/-! ### Names in requests -/

theorem dropHere_of_head {path : List Char} (h : '.' ∉ path.head?) : dropHere path = path := by
  unfold dropHere
  split
  · simp at h
  · rfl

theorem dropExtension_append (path : List Char) : dropExtension (path ++ extension) = path := by
  rw [dropExtension, List.isSuffixOf?_eq_some_iff_append_eq.2 rfl]
  rfl

theorem dropExtension_of_not_suffix {path : List Char} (h : ∀ front, front ++ extension ≠ path) :
    dropExtension path = path := by
  unfold dropExtension
  cases hfront : extension.isSuffixOf? path with
  | none => rfl
  | some front => exact absurd (List.isSuffixOf?_eq_some_iff_append_eq.1 hfront) (h front)

theorem undotted_of_not_mem {path : List Char} (h : '.' ∉ path) : undotted path = path := by
  rw [undotted, map_replace_of_not_mem h, ite_self]

theorem dropWhile_of_head {path : List Char} (h : '/' ∉ path.head?) :
    path.dropWhile (· = '/') = path := by
  cases path with
  | nil => rfl
  | cons c rest => exact List.dropWhile_cons_of_neg (by simpa using h)

theorem dropSlashes_of_ends {path : List Char} (hhead : '/' ∉ path.head?)
    (hlast : '/' ∉ path.getLast?) : dropSlashes path = path := by
  rw [dropSlashes, dropWhile_of_head hhead, dropWhile_of_head (by simpa using hlast),
    List.reverse_reverse]

/-- A text whose ends no rule for names looks at. -/
structure HasPlainEnds (text : List Char) : Prop where
  ne_nil : text ≠ []
  head : ∀ c ∈ text.head?, Text.isBlank c = false ∧ c ≠ '.' ∧ c ≠ '/'
  last : ∀ c ∈ text.getLast?, Text.isBlank c = false ∧ c ≠ '/'

theorem IsSegment.hasPlainEnds {segment : List Char} (h : IsSegment segment) :
    HasPlainEnds segment where
  ne_nil := h.ne_nil
  head c hc := by
    refine ⟨(h.head c hc).1, (h.head c hc).2, ?_⟩
    rintro rfl
    exact h.no_slash (List.mem_of_mem_head? hc)
  last c hc := by
    refine ⟨h.last c hc, ?_⟩
    rintro rfl
    exact h.no_slash (List.mem_of_mem_getLast? hc)

theorem hasPlainEnds_intercalate (separator : List Char) {segments : List (List Char)}
    (hne : segments ≠ []) (h : ∀ segment ∈ segments, IsSegment segment) :
    HasPlainEnds (separator.intercalate segments) where
  ne_nil := by
    obtain ⟨segment, rest, rfl⟩ := List.exists_cons_of_ne_nil hne
    simp [intercalate_cons, (h segment List.mem_cons_self).ne_nil]
  head := head?_intercalate fun segment hsegment =>
    ⟨(h segment hsegment).ne_nil, (h segment hsegment).hasPlainEnds.head⟩
  last := getLast?_intercalate fun segment hsegment =>
    ⟨(h segment hsegment).ne_nil, (h segment hsegment).hasPlainEnds.last⟩

/-- What a request without blanks around it comes to, but for slashes at its ends. -/
def bare (text : List Char) : List Char := undotted (dropExtension (dropHere (text.map slash)))

section Segments

variable {segments : List (List Char)}

theorem map_slash_intercalate (hsegments : ∀ segment ∈ segments, IsSegment segment)
    (separator : Char) :
    ([separator].intercalate segments).map slash = [slash separator].intercalate segments :=
  map_intercalate_of_map_eq fun segment hsegment =>
    map_replace_of_not_mem (hsegments segment hsegment).no_backslash

theorem nameOfFile_slashes (hne : segments ≠ [])
    (hsegments : ∀ segment ∈ segments, IsSegment segment) :
    nameOfFile (joined segments ++ extension) = joined segments := by
  rw [nameOfFile_append_extension hne, joined, map_slash_intercalate hsegments]
  · rfl
  · intro segment hsegment
    have h := hsegments segment hsegment
    exact ⟨h.ne_nil, h.no_slash, fun hc => (h.head _ hc).2 rfl⟩

/-- A path without slashes is taken for one segment, whose backslashes are slashes in the end. -/
theorem nameOfFile_backslashes (hne : segments ≠ [])
    (hsegments : ∀ segment ∈ segments, IsSegment segment) :
    nameOfFile (['\\'].intercalate segments ++ extension) = joined segments := by
  have hends := hasPlainEnds_intercalate ['\\'] hne hsegments
  have hone : joined [['\\'].intercalate segments] = ['\\'].intercalate segments :=
    List.intercalate_singleton
  rw [← hone, nameOfFile_append_extension (List.cons_ne_nil _ _), hone,
    map_slash_intercalate hsegments]
  · rfl
  · rw [List.forall_mem_singleton]
    refine ⟨hends.ne_nil, ?_, fun hc => (hends.head _ hc).2.1 rfl⟩
    exact not_mem_intercalate (by decide) fun segment hsegment =>
      (hsegments segment hsegment).no_slash

theorem dropHere_intercalate (hne : segments ≠ [])
    (hsegments : ∀ segment ∈ segments, IsSegment segment) (separator rest : List Char) :
    dropHere (separator.intercalate segments ++ rest) = separator.intercalate segments ++ rest := by
  have hends := hasPlainEnds_intercalate separator hne hsegments
  apply dropHere_of_head
  rw [List.head?_append_of_ne_nil _ hends.ne_nil]
  exact fun hc => (hends.head _ hc).2.1 rfl

/-- The path of a file comes to the path without the extension, read as if it stood alone: if no
slash is left in it, it is taken for a dotted name. -/
theorem bare_file (hne : segments ≠ []) (hsegments : ∀ segment ∈ segments, IsSegment segment) :
    bare ('.' :: '/' :: joined segments ++ extension) = undotted (joined segments) := by
  have hslash : ('.' :: '/' :: joined segments ++ extension).map slash =
      '.' :: '/' :: (joined segments ++ extension) := by
    rw [List.map_append, List.map_cons, List.map_cons, joined, map_slash_intercalate hsegments]
    rfl
  rw [bare, hslash, dropHere, joined, dropHere_intercalate hne hsegments, dropExtension_append]

/-- Without dots, segments come to their path, whichever separator stands between them. -/
theorem bare_separated (hne : segments ≠ []) (hsegments : ∀ segment ∈ segments, IsSegment segment)
    (hdots : ∀ segment ∈ segments, '.' ∉ segment) (separator : Char)
    (hseparator : slash separator = '/') :
    bare ([separator].intercalate segments) = joined segments := by
  have hjoined : '.' ∉ joined segments := not_mem_intercalate (by decide) hdots
  have hhere := dropHere_intercalate hne hsegments ['/'] []
  rw [List.append_nil, ← joined] at hhere
  have hextension : ∀ front, front ++ extension ≠ joined segments := by
    rintro front heq
    exact hjoined (by simp [← heq, extension])
  rw [bare, map_slash_intercalate hsegments, hseparator, ← joined, hhere,
    dropExtension_of_not_suffix hextension, undotted_of_not_mem hjoined]

/-- Dots between segments are no extension, unless the last of several segments is spelled like
one. -/
theorem dropExtension_dots (hne : segments ≠ []) (hdots : ∀ segment ∈ segments, '.' ∉ segment)
    (hlast : segments.length = 1 ∨ segments.getLast? ≠ some ['l', 'u', 'a']) :
    dropExtension (['.'].intercalate segments) = ['.'].intercalate segments := by
  apply dropExtension_of_not_suffix
  intro front heq
  have hsplit : front.splitOn '.' ++ [['l', 'u', 'a']] = segments :=
    calc front.splitOn '.' ++ [['l', 'u', 'a']]
      _ = (front ++ extension).splitOn '.' :=
        (List.splitOn_append_cons_self front ['l', 'u', 'a']).symm
      _ = (['.'].intercalate segments).splitOn '.' := by rw [heq]
      _ = segments := List.splitOn_intercalate '.' hdots hne
  rcases hlast with hone | hlast
  · have hpos := List.length_pos_iff.2 (List.splitOn_ne_nil '.' front)
    rw [← hsplit, List.length_append, List.length_singleton] at hone
    omega
  · exact hlast (by rw [← hsplit, List.getLast?_concat])

theorem bare_dots (hne : segments ≠ []) (hsegments : ∀ segment ∈ segments, IsSegment segment)
    (hdots : ∀ segment ∈ segments, '.' ∉ segment)
    (hlast : segments.length = 1 ∨ segments.getLast? ≠ some ['l', 'u', 'a']) :
    bare (['.'].intercalate segments) = joined segments := by
  have hhere := dropHere_intercalate hne hsegments ['.'] []
  rw [List.append_nil] at hhere
  have hslash : '/' ∉ ['.'].intercalate segments :=
    not_mem_intercalate (by decide) fun segment hsegment => (hsegments segment hsegment).no_slash
  rw [bare, map_slash_intercalate hsegments, show slash '.' = '.' from rfl, hhere,
    dropExtension_dots hne hdots hlast, undotted, if_neg hslash]
  exact map_intercalate_of_map_eq fun segment hsegment =>
    map_replace_of_not_mem (hdots segment hsegment)

variable {front back : List Char} (hfront : ∀ c ∈ front, Text.isBlank c)
  (hback : ∀ c ∈ back, Text.isBlank c)
include hfront hback

/-- A request names the path that it comes to. -/
theorem nameOfRequest_of_bare (hne : segments ≠ [])
    (hsegments : ∀ segment ∈ segments, IsSegment segment) {text : List Char} (htext : text ≠ [])
    (hhead : ∀ c ∈ text.head?, Text.isBlank c = false)
    (hlast : ∀ c ∈ text.getLast?, Text.isBlank c = false) (h : bare text = joined segments) :
    nameOfRequest (front ++ text ++ back) = some (joined segments) := by
  have hends := hasPlainEnds_intercalate ['/'] hne hsegments
  have hslashes : dropSlashes (joined segments) = joined segments :=
    dropSlashes_of_ends (fun hc => (hends.head _ hc).2.2 rfl) (fun hc => (hends.last _ hc).2 rfl)
  rw [nameOfRequest, Text.trim_append hfront hback hhead hlast htext, ← bare, h, hslashes]
  split
  · exact absurd ‹_› hends.ne_nil
  · rfl

theorem nameOfRequest_intercalate (hne : segments ≠ [])
    (hsegments : ∀ segment ∈ segments, IsSegment segment) {separator : List Char}
    (h : bare (separator.intercalate segments) = joined segments) :
    nameOfRequest (front ++ separator.intercalate segments ++ back) = some (joined segments) := by
  have hends := hasPlainEnds_intercalate separator hne hsegments
  exact nameOfRequest_of_bare hfront hback hne hsegments hends.ne_nil
    (fun c hc => (hends.head c hc).1) (fun c hc => (hends.last c hc).1) h

/-- A request for the path of a file names its module, unless the path without the extension is
taken for a dotted name. -/
theorem nameOfRequest_file (hne : segments ≠ [])
    (hsegments : ∀ segment ∈ segments, IsSegment segment)
    (h : undotted (joined segments) = joined segments) :
    nameOfRequest (front ++ ('.' :: '/' :: joined segments ++ extension) ++ back) =
      some (joined segments) := by
  refine nameOfRequest_of_bare hfront hback hne hsegments (by simp) ?_ ?_
    ((bare_file hne hsegments).trans h)
  · rintro c ⟨⟩
    decide
  · rw [List.getLast?_append_of_ne_nil _ (by decide)]
    rintro c ⟨⟩
    decide

end Segments

/-! ### Dots in segments -/

theorem undotted_of_two_le {segments : List (List Char)} (h : 2 ≤ segments.length) :
    undotted (joined segments) = joined segments := by
  obtain _ | ⟨first, _ | ⟨second, rest⟩⟩ := segments
  · simp at h
  · simp at h
  · refine if_pos ?_
    simp [joined, intercalate_cons]

theorem dot_not_mem_undotted {path : List Char} (h : '/' ∉ path) : '.' ∉ undotted path := by
  rw [undotted, if_neg h, List.mem_map]
  rintro ⟨c, -, hc⟩
  split at hc
  · exact absurd hc (by decide)
  · contradiction

theorem mem_of_mem_dropSlashes {path : List Char} {c : Char} (h : c ∈ dropSlashes path) :
    c ∈ path := by
  have hreverse := (List.dropWhile_suffix _).subset (List.mem_reverse.1 h)
  exact (List.dropWhile_suffix _).subset (List.mem_reverse.1 hreverse)

/-- The path of a file in the root names a module without dots, whatever dots stand in the name of
the file: once the step to the root is taken away, no slash shows that it is a path. -/
theorem dot_not_mem_of_nameOfRequest {segment name : List Char} (hsegment : IsSegment segment)
    (h : nameOfRequest ('.' :: '/' :: segment ++ extension) = some name) : '.' ∉ name := by
  have hbare : bare ('.' :: '/' :: segment ++ extension) = undotted segment := by
    have hfile := bare_file (List.cons_ne_nil segment []) (List.forall_mem_singleton.2 hsegment)
    rwa [joined, List.intercalate_singleton] at hfile
  have htrim : Text.trim ('.' :: '/' :: segment ++ extension) =
      '.' :: '/' :: segment ++ extension := by
    have hlast : ∀ c ∈ ('.' :: '/' :: segment ++ extension).getLast?, Text.isBlank c = false := by
      rw [List.getLast?_append_of_ne_nil _ (by decide)]
      rintro c ⟨⟩
      decide
    have hkeep := Text.trim_append (List.forall_mem_nil _) (List.forall_mem_nil _)
      (by rintro c ⟨⟩; decide) hlast (by simp)
    rwa [List.nil_append, List.append_nil] at hkeep
  rw [nameOfRequest, htrim, ← bare, hbare] at h
  split at h
  · cases h
  · cases h
    intro hdot
    exact dot_not_mem_undotted hsegment.no_slash (mem_of_mem_dropSlashes hdot)

/-! ### Spellings -/

/-- Texts by which a program may ask for the module with these segments. Dots will not do where the
last of several segments would be read as an extension. -/
inductive Spells (segments : List String) : String → Prop
  | slashes : Spells segments ("/".intercalate segments)
  | backslashes : Spells segments ("\\".intercalate segments)
  | file : Spells segments ("./" ++ "/".intercalate segments ++ ".lua")
  | dots (h : segments.length = 1 ∨ segments.getLast? ≠ some "lua") :
    Spells segments (".".intercalate segments)

/-- Paths under which the file of the module with these segments may be registered. -/
inductive Locates (segments : List String) : String → Prop
  | slashes : Locates segments ("/".intercalate segments ++ ".lua")
  | backslashes : Locates segments ("\\".intercalate segments ++ ".lua")
  | here {path : String} (h : Locates segments path) : Locates segments ("./" ++ path)

section Strings

variable {segments : List String}

/-- The name of the module with these segments. -/
theorem ofList_joined :
    String.ofList (joined (segments.map String.toList)) = "/".intercalate segments := by
  rw [← String.toList_inj, String.toList_ofList, String.toList_intercalate]
  rfl

variable (hne : segments ≠ []) (hsegments : ∀ segment ∈ segments, IsSegment segment.toList)
include hne hsegments

/-- However its path is spelled, a file is registered under the name of its module. -/
theorem nameOf_of_locates {path : String} (h : Locates segments path) :
    Registry.nameOf path = "/".intercalate segments := by
  rw [Registry.nameOf, ← ofList_joined]
  congr 1
  induction h with
  | slashes =>
    rw [String.toList_append, String.toList_intercalate]
    exact nameOfFile_slashes (by simpa using hne) (by simpa using hsegments)
  | backslashes =>
    rw [String.toList_append, String.toList_intercalate]
    exact nameOfFile_backslashes (by simpa using hne) (by simpa using hsegments)
  | here h ih =>
    rw [String.toList_append]
    exact (nameOfFile_here _).trans ih

/-- A request for the path of a file names its module, unless the path without the extension is
taken for a dotted name. -/
theorem requested_file
    (h : undotted (joined (segments.map String.toList)) = joined (segments.map String.toList))
    {front back : String} (hfront : ∀ c ∈ front.toList, Text.isBlank c)
    (hback : ∀ c ∈ back.toList, Text.isBlank c) :
    requested (front ++ ("./" ++ "/".intercalate segments ++ ".lua") ++ back) =
      some ("/".intercalate segments) := by
  rw [requested, String.toList_append, String.toList_append, ← ofList_joined]
  refine Option.map_eq_some_iff.2 ⟨joined (segments.map String.toList), ?_, rfl⟩
  rw [String.toList_append, String.toList_append, ofList_joined, String.toList_intercalate]
  exact nameOfRequest_file hfront hback (by simpa using hne) (by simpa using hsegments) h

theorem requested_intercalate (separator : String)
    (h : bare (separator.toList.intercalate (segments.map String.toList)) =
      joined (segments.map String.toList))
    {front back : String} (hfront : ∀ c ∈ front.toList, Text.isBlank c)
    (hback : ∀ c ∈ back.toList, Text.isBlank c) :
    requested (front ++ separator.intercalate segments ++ back) =
      some ("/".intercalate segments) := by
  rw [requested, String.toList_append, String.toList_append, ← ofList_joined]
  refine Option.map_eq_some_iff.2 ⟨joined (segments.map String.toList), ?_, rfl⟩
  rw [String.toList_intercalate]
  exact nameOfRequest_intercalate hfront hback (by simpa using hne) (by simpa using hsegments) h

/-- However it is spelled, a request names the module. -/
theorem requested_of_spells (hdots : ∀ segment ∈ segments, '.' ∉ segment.toList)
    {spelling : String} (h : Spells segments spelling) {front back : String}
    (hfront : ∀ c ∈ front.toList, Text.isBlank c) (hback : ∀ c ∈ back.toList, Text.isBlank c) :
    requested (front ++ spelling ++ back) = some ("/".intercalate segments) := by
  have hne' : segments.map String.toList ≠ [] := by simpa using hne
  have hsegments' : ∀ segment ∈ segments.map String.toList, IsSegment segment := by
    simpa using hsegments
  have hdots' : ∀ segment ∈ segments.map String.toList, '.' ∉ segment := by simpa using hdots
  cases h with
  | slashes =>
    exact requested_intercalate hne hsegments "/"
      (bare_separated hne' hsegments' hdots' '/' rfl) hfront hback
  | backslashes =>
    exact requested_intercalate hne hsegments "\\"
      (bare_separated hne' hsegments' hdots' '\\' rfl) hfront hback
  | file =>
    have hdot : '.' ∉ joined (segments.map String.toList) := not_mem_intercalate (by decide) hdots'
    exact requested_file hne hsegments (undotted_of_not_mem hdot) hfront hback
  | dots hlast =>
    have hlast' : (segments.map String.toList).length = 1 ∨
        (segments.map String.toList).getLast? ≠ some ['l', 'u', 'a'] := by
      rw [List.length_map, List.getLast?_map]
      refine hlast.imp_right fun hlast hlua => hlast ?_
      obtain ⟨last, hlast, hlua⟩ := Option.map_eq_some_iff.1 hlua
      rw [hlast, ← String.toList_inj.1 (hlua.trans (show _ = "lua".toList from rfl))]
    exact requested_intercalate hne hsegments "." (bare_dots hne' hsegments' hdots' hlast')
      hfront hback

end Strings

end LuaTypes.Module
