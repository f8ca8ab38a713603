import Reckon.Values.Source

/-!
# The lines of a text

A source delivers bytes, and `Assembly` looks for the ends of lines among them. `Text.lines` cuts
the characters of a text into lines instead. The two agree, because in UTF-8 the bytes of a line
feed and of a carriage return occur in no other character.

## Key results

- `Source.read_ofText`: what can be read of a text are its lines
-/

namespace Reckon

namespace Text

/-- A line without the carriage return at its end. -/
def dropReturn (line : List Char) : List Char :=
  if line.getLast? = some '\r' then line.dropLast else line

/-- The lines of a text, the first of which has begun before it. -/
def linesFrom (begun : List Char) : List Char → List (List Char)
  | [] => if begun = [] then [] else [begun]
  | c :: cs =>
    if c = '\n' then dropReturn begun :: linesFrom [] cs else linesFrom (begun ++ [c]) cs

/-- The lines of a text. Each ends at a line feed, and a carriage return directly before that
    belongs to the end of the line, too. The last line need not be ended. -/
def lines (text : String) : List String :=
  (linesFrom [] text.toList).map String.ofList

/-- Whether a character does not belong to the end of a line. -/
def IsInline (c : Char) : Prop :=
  c ≠ '\n' ∧ c ≠ '\r'

instance : DecidablePred IsInline := fun _ => inferInstanceAs (Decidable (_ ∧ _))

theorem linesFrom_append {line : List Char} (h : '\n' ∉ line) (begun rest : List Char) :
    linesFrom begun (line ++ '\n' :: rest) = dropReturn (begun ++ line) :: linesFrom [] rest := by
  induction line generalizing begun with
  | nil => simp [linesFrom]
  | cons c line ih =>
    have hc : c ≠ '\n' := fun hc => h (hc ▸ List.mem_cons_self)
    rw [List.cons_append, linesFrom, if_neg hc, ih fun hmem => h (List.mem_cons_of_mem _ hmem)]
    simp

/-- What is left of a text without a line feed is one line. -/
theorem linesFrom_of_not_mem {cs : List Char} (h : '\n' ∉ cs) (begun : List Char) :
    linesFrom begun cs = if begun ++ cs = [] then [] else [begun ++ cs] := by
  induction cs generalizing begun with
  | nil => simp [linesFrom]
  | cons c cs ih =>
    have hc : c ≠ '\n' := fun hc => h (hc ▸ List.mem_cons_self)
    rw [linesFrom, if_neg hc, ih fun hmem => h (List.mem_cons_of_mem _ hmem)]
    simp

/-- A text without a line feed is one line, unless it is empty. -/
theorem lines_eq_singleton {line : String} (hne : line.toList ≠ []) (h : '\n' ∉ line.toList) :
    lines line = [line] := by
  rw [lines, linesFrom_of_not_mem h, List.nil_append, if_neg hne, List.map_singleton,
    String.ofList_toList]

/-- The lines of a text that is made of lines. -/
theorem lines_join {ls : List String} (h : ∀ l ∈ ls, ∀ c ∈ l.toList, IsInline c) :
    lines (String.join (ls.map (· ++ "\n"))) = ls := by
  induction ls with
  | nil => rfl
  | cons l ls ih =>
    have hl := h l List.mem_cons_self
    have hfeed : '\n' ∉ l.toList := fun hmem => (hl _ hmem).1 rfl
    -- there is no carriage return to lose
    have hreturn : dropReturn l.toList = l.toList := by
      unfold dropReturn
      rw [if_neg fun hlast => (hl _ (List.mem_of_getLast? hlast)).2 rfl]
    have ih := ih fun l hl => h l (List.mem_cons_of_mem _ hl)
    unfold lines at ih ⊢
    rw [List.map_cons, String.join_cons, String.toList_append, String.toList_append,
      List.append_assoc]
    have hcons : "\n".toList ++ (String.join (ls.map (· ++ "\n"))).toList =
        '\n' :: (String.join (ls.map (· ++ "\n"))).toList := rfl
    rw [hcons, linesFrom_append hfeed, List.nil_append, hreturn, List.map_cons, ih,
      String.ofList_toList]

end Text

/-! ## Bytes of characters -/

/-- A byte below 128 occurs in one character only. -/
private theorem eq_of_mem_utf8EncodeChar {c : Char} {b : UInt8} (hb : b.toNat < 128)
    (h : b ∈ String.utf8EncodeChar c) : c.toNat = b.toNat := by
  have hofNat : ∀ n : Nat, b = UInt8.ofNat n → b.toNat = n % 256 := by
    rintro n rfl
    exact UInt8.toNat_ofNat'
  show c.val.toNat = b.toNat
  -- every byte of a longer character is at least 128
  fun_cases String.utf8EncodeChar c with
  | case1 v hle =>
    rw [String.utf8EncodeChar, if_pos hle] at h
    have := hofNat _ (List.mem_singleton.mp h)
    omega
  | case2 v hle₁ hle₂ =>
    rw [String.utf8EncodeChar, if_neg hle₁, if_pos hle₂] at h
    simp only [List.mem_cons, List.not_mem_nil, or_false] at h
    rcases h with h | h <;> have := hofNat _ h <;> omega
  | case3 v hle₁ hle₂ hle₃ =>
    rw [String.utf8EncodeChar, if_neg hle₁, if_neg hle₂, if_pos hle₃] at h
    simp only [List.mem_cons, List.not_mem_nil, or_false] at h
    rcases h with h | h | h <;> have := hofNat _ h <;> omega
  | case4 v hle₁ hle₂ hle₃ =>
    rw [String.utf8EncodeChar, if_neg hle₁, if_neg hle₂, if_neg hle₃] at h
    simp only [List.mem_cons, List.not_mem_nil, or_false] at h
    rcases h with h | h | h | h <;> have := hofNat _ h <;> omega

private theorem eq_lineFeed {c : Char} (h : (10 : UInt8) ∈ String.utf8EncodeChar c) : c = '\n' :=
  Char.toNat_inj.mp (eq_of_mem_utf8EncodeChar (by decide) h)

private theorem eq_carriageReturn {c : Char} (h : (13 : UInt8) ∈ String.utf8EncodeChar c) :
    c = '\r' :=
  Char.toNat_inj.mp (eq_of_mem_utf8EncodeChar (by decide) h)

namespace Values

namespace Assembly

/-- Bytes without a line feed are put at the end of the line that has begun. -/
theorem foldl_push_of_not_mem (a : Assembly) {bytes : List UInt8} (h : 10 ∉ bytes) :
    bytes.foldl push a = { a with begun := a.begun ++ bytes.toByteArray } := by
  -- Induction on the bytes: each of them is pushed onto the line that has begun.
  induction bytes generalizing a with
  | nil => simp
  | cons b bytes ih =>
    have hb : b ≠ 10 := fun hb => h (hb ▸ List.mem_cons_self)
    rw [List.foldl_cons, ih _ fun hmem => h (List.mem_cons_of_mem _ hmem), push, if_neg hb]
    congr 1
    ext1
    simp [ByteArray.data_append, List.data_toByteArray, ByteArray.data_push]

/-- A line loses the carriage return at its end, as a row of bytes and as one of characters. -/
theorem dropReturn_utf8Encode (line : List Char) :
    dropReturn line.utf8Encode = (Text.dropReturn line).utf8Encode := by
  rcases List.eq_nil_or_concat line with rfl | ⟨front, c, rfl⟩
  · rfl
  · rw [List.concat_eq_append]
    have hdata : (front ++ [c]).utf8Encode.data =
        front.utf8Encode.data ++ (String.utf8EncodeChar c).toArray := by
      rw [List.utf8Encode_append, ByteArray.data_append, List.utf8Encode_singleton,
        List.data_toByteArray]
    unfold dropReturn Text.dropReturn
    by_cases hc : c = '\r'
    · subst hc
      have hbytes : (String.utf8EncodeChar '\r').toArray = #[13] := by decide
      rw [hbytes] at hdata
      have hback : (front ++ ['\r']).utf8Encode.data.back? = some 13 := by
        rw [hdata, Array.back?_append]
        rfl
      rw [if_pos hback, if_pos (by simp), List.dropLast_concat]
      ext1
      show (front ++ ['\r']).utf8Encode.data.pop = front.utf8Encode.data
      rw [hdata, Array.pop_append_of_ne_empty (by simp)]
      simp
    · -- the last byte is that of a carriage return only if the last character is one
      have hlast : (front ++ [c]).utf8Encode.data.back? ≠ some 13 := by
        intro hback
        rcases List.eq_nil_or_concat (String.utf8EncodeChar c) with hnil | ⟨bytes, b, hbytes⟩
        · have hlen := congrArg List.length hnil
          rw [String.length_utf8EncodeChar, List.length_nil] at hlen
          have := c.utf8Size_pos
          omega
        · rw [hdata, hbytes] at hback
          obtain rfl : b = 13 := by simpa using hback
          exact hc (eq_carriageReturn (by rw [hbytes]; simp))
      rw [if_neg hlast, if_neg (by simpa using hc)]

/-- The lines that are put together from the bytes of some characters. -/
theorem finish_foldl_push (found : Array ByteArray) (begun cs : List Char) :
    ((cs.flatMap String.utf8EncodeChar).foldl push ⟨found, begun.utf8Encode⟩).finish.toList =
      found.toList ++ (Text.linesFrom begun cs).map List.utf8Encode := by
  -- Induction on the characters. The state after the bytes of some of them is that of `linesFrom`:
  -- the lines that have been found, and the line that has begun, in UTF-8.
  induction cs generalizing found begun with
  | nil =>
    by_cases hbegun : begun = []
    · subst hbegun
      simp [Text.linesFrom, finish, ByteArray.isEmpty]
    · simp [Text.linesFrom, finish, hbegun, ByteArray.isEmpty]
  | cons c cs ih =>
    rw [List.flatMap_cons, List.foldl_append, Text.linesFrom]
    by_cases hc : c = '\n'
    · subst hc
      -- the line ends here, and the next one is empty so far
      have hbytes : String.utf8EncodeChar '\n' = [10] := by decide
      rw [if_pos rfl, hbytes, List.foldl_cons, List.foldl_nil, push, if_pos rfl]
      rw [← List.utf8Encode_nil, ih, dropReturn_utf8Encode]
      simp
    · -- the bytes of any other character end no line
      have hbytes : 10 ∉ String.utf8EncodeChar c := fun hmem => hc (eq_lineFeed hmem)
      rw [if_neg hc, foldl_push_of_not_mem _ hbytes, ← List.utf8Encode_singleton,
        ← List.utf8Encode_append]
      exact ih _ _

end Assembly

/-- The lines of characters can be read. -/
theorem Reading.ofLines_utf8Encode (found : Array String) (last : Option ReadFault)
    (ls : List (List Char)) :
    ofLines found last (ls.map List.utf8Encode) =
      ⟨found.toList ++ ls.map String.ofList, last⟩ := by
  induction ls generalizing found with
  | nil => simp [ofLines]
  | cons l ls ih =>
    have hvalid : String.fromUTF8? l.utf8Encode = some (String.ofList l) := by
      rw [String.fromUTF8?, dif_pos ByteArray.isValidUTF8_utf8Encode]
      rfl
    rw [List.map_cons, ofLines, hvalid]
    simp only
    rw [ih]
    simp

/-- What can be read of a text are its lines. -/
theorem Source.read_ofText (text : String) :
    (Source.ofText text).read = ⟨Text.lines text, none⟩ := by
  have hbytes : text.toUTF8.data.toList = text.toList.flatMap String.utf8EncodeChar := by
    rw [String.toUTF8_eq_toByteArray, ← String.utf8Encode_toList, List.utf8Encode,
      List.data_toByteArray]
  have hfinish := Assembly.finish_foldl_push #[] [] text.toList
  rw [← hbytes, List.utf8Encode_nil] at hfinish
  simp only [Source.read, Source.ofText, Source.ofBytes, List.foldl_cons, List.foldl_nil,
    Assembly.pushChunk, ← Array.foldl_toList]
  rw [hfinish]
  simpa [Text.lines] using Reading.ofLines_utf8Encode #[] none (Text.linesFrom [] text.toList)

end Values

end Reckon
