import Reckon.Event
import Reckon.Fault
import Reckon.Proofs.Reporting

/-!
# What is said about faults, errors and events

A message names all that the thing is about which it is the message of: a symbol, an index, a
length, a value or a token. What these are is said by `parts`, for each kind of thing. The error of
a line of values is about the symbol that the line starts with, and about no other one.

## Key results

- `Fault.occurs_message`, `Values.LoadError.occurs_message`, `Event.occurs_text`: each part occurs
  in the message
- `Values.Line.about_of_read_eq_error`: the error of a line is about the first word of the line
-/

namespace Reckon

/-! ## Texts in texts -/

/-- Whether a text occurs in another one. -/
def Text.Occurs (part text : String) : Prop :=
  part.toList <:+: text.toList

namespace Text

variable {part text : String}

@[grind ←] theorem occurs_self (part : String) : Occurs part part :=
  List.infix_rfl

/-- A text occurs at the end of a longer one. -/
@[grind ←] theorem occurs_append_self (before part : String) : Occurs part (before ++ part) := by
  rw [Occurs, String.toList_append]
  exact List.infix_append_right

/-- A text still occurs if more is said. -/
@[grind ←] theorem Occurs.append (h : Occurs part text) (after : String) :
    Occurs part (text ++ after) := by
  rw [Occurs, String.toList_append]
  exact h.trans List.infix_append_left

@[grind =] theorem toString_text (text : String) : toString text = text := rfl

theorem Occurs.trans {whole : String} (h : Occurs part text) (h' : Occurs text whole) :
    Occurs part whole :=
  List.IsInfix.trans h h'

end Text

open Text

/-! ## Faults -/

namespace Fault

/-- What a fault is about, as texts. -/
def Cause.parts : Cause → List String
  | unbalanced kind side => [toString (kind.char side)]
  | indexOutOfRange name index (some length) => [name, toString index, toString length]
  | indexOutOfRange name index none => [name, toString index]
  | invalidIndex name value => [name, Decimal.text value]
  | unexpectedToken text => [text]
  | nestingTooDeep limit => [toString limit]
  | kindConflict name => [name]
  | emptyExpression | missingOperand => []

theorem Cause.occurs_message (cause : Cause) : ∀ part ∈ cause.parts, Occurs part cause.message := by
  cases cause with
  | indexOutOfRange name index length =>
    cases length <;> unfold parts message <;> grind
  | _ =>
    unfold parts message
    grind

/-- The message of a fault says where it shows and what it is about. -/
theorem occurs_message (fault : Fault) :
    ∀ part ∈ toString fault.offset :: fault.cause.parts, Occurs part fault.message := by
  have hoffset : Occurs (toString fault.offset) fault.message := by
    unfold message
    grind
  have hcause : Occurs fault.cause.message fault.message := by
    unfold message
    grind
  exact List.forall_mem_cons.mpr
    ⟨hoffset, fun part h => (fault.cause.occurs_message part h).trans hcause⟩

end Fault

/-! ## Errors of values -/

namespace Values

/-- What a defect of a line is about, as texts. -/
def Defect.parts : Defect → List String
  | unexpectedText text => [text]
  | wrongStart word => [word]
  | notOneValue name | missingLength name | pairExpected name => [name]
  | lengthNotInteger found | indexNotInteger found | notNumber found => [found.text]
  | negativeLength name length => [name, toString length]
  | lengthAboveLimit name length => [name, toString length, toString greatestLength]
  | tooLarge value => [toString value]
  | described details => [details]

theorem Defect.occurs_message (defect : Defect) :
    ∀ part ∈ defect.parts, Occurs part defect.message := by
  cases defect <;> unfold parts message <;> grind

/-- What is wrong with a line, as texts. -/
def Cause.parts : Cause → List String
  | malformed defect => defect.parts
  | indexOutOfRange name index length => [name, toString index, toString length]
  | unreadable fault => [fault.message]

theorem Cause.occurs_message (cause : Cause) : ∀ part ∈ cause.parts, Occurs part cause.message := by
  cases cause with
  | malformed defect =>
    have hdefect : Occurs defect.message (malformed defect).message := by
      unfold message
      grind
    exact fun part h => (defect.occurs_message part h).trans hdefect
  | indexOutOfRange name index length =>
    unfold parts message
    grind
  | unreadable fault =>
    unfold parts message
    grind

namespace LoadError

/-- What an error of a load is about, as texts: that of one line has its number, and that of several
    has how many there are. -/
def parts : LoadError → List String
  | onLine number cause => toString number :: cause.parts
  | onLines errors => toString errors.length :: errors.map message

theorem occurs_appendMessages (text : String) (errors : List LoadError) :
    Occurs text (appendMessages text errors) ∧
      ∀ error ∈ errors, Occurs error.message (appendMessages text errors) := by
  induction errors generalizing text with
  | nil => exact ⟨occurs_self text, nofun⟩
  | cons error errors ih =>
    obtain ⟨htext, hmessages⟩ := ih (text ++ "\n  " ++ error.message)
    rw [appendMessages]
    refine ⟨Occurs.trans ?_ htext, List.forall_mem_cons.mpr ⟨Occurs.trans ?_ htext, hmessages⟩⟩
    · exact ((occurs_self text).append _).append _
    · exact occurs_append_self ..

/-- The message of an error says on which line it is and what it is about, and that of several
    errors has all of their messages in it. -/
theorem occurs_message (error : LoadError) : ∀ part ∈ error.parts, Occurs part error.message := by
  cases error with
  | onLine number cause =>
    have hnumber : Occurs (toString number) (onLine number cause).message := by
      unfold message
      grind
    have hcause : Occurs cause.message (onLine number cause).message := by
      unfold message
      grind
    exact List.forall_mem_cons.mpr
      ⟨hnumber, fun part h => (cause.occurs_message part h).trans hcause⟩
  | onLines errors =>
    rw [message]
    obtain ⟨htext, hmessages⟩ :=
      occurs_appendMessages s!"{errors.length} value lines could not be loaded:" errors
    refine List.forall_mem_cons.mpr ⟨Occurs.trans ?_ htext, List.forall_mem_map.mpr hmessages⟩
    exact (occurs_append_self "" _).append _

end LoadError

end Values

/-! ## Events -/

namespace Event

/-- What an event is about, as texts. -/
def parts : Event → List String
  | discovered .scalar name offset => ["scalar", name, toString offset]
  | discovered .array name offset => ["array", name, toString offset]
  | unknownSymbol line word => [toString line, word]
  | scalarSet line name value => [toString line, name, Decimal.text value]
  | arraySet line name length => [toString line, name, toString length]
  | lineSkipped line error => [toString line, error.message]
  | operandPushed value => [Decimal.text value]
  | operatorPushed op => [toString op.symbol]
  | applied left op right result =>
    [Decimal.text left, toString op.symbol, Decimal.text right, Decimal.text result]
  | cellRead name index value => [name, toString index, Decimal.text value]

/-- The line of an event in a log has its level and what it is about. -/
theorem occurs_text (event : Event) :
    ∀ part ∈ event.level.text :: event.parts, Occurs part event.text := by
  have hmessage : ∀ part ∈ event.parts, Occurs part event.message := by
    cases event with
    | discovered kind name offset =>
      have hscalar : Occurs "scalar" "discovered scalar '" :=
        ⟨"discovered ".toList, " '".toList, rfl⟩
      have harray : Occurs "array" "discovered array '" :=
        ⟨"discovered ".toList, " '".toList, rfl⟩
      cases kind <;> unfold parts message <;> grind
    | _ =>
      unfold parts message
      grind
  have hlevel : Occurs event.level.text event.text := by
    unfold text
    grind
  have htext : Occurs event.message event.text := by
    unfold text
    grind
  exact List.forall_mem_cons.mpr ⟨hlevel, fun part h => (hmessage part h).trans htext⟩

end Event

/-! ## What the error of a line is about -/

namespace Values

/-- Whether a defect is about a word, or about a token of the line only. -/
def Defect.About (word : String) : Defect → Prop
  | wrongStart name | notOneValue name | missingLength name | pairExpected name => name = word
  | negativeLength name _ | lengthAboveLimit name _ => name = word
  | unexpectedText _ | lengthNotInteger _ | indexNotInteger _ | notNumber _ | tooLarge _ => True
  | described _ => False

/-- Whether what is wrong with a line is about a word, or about a token of the line only. -/
def Cause.About (word : String) : Cause → Prop
  | malformed defect => defect.About word
  | indexOutOfRange name _ _ => name = word
  | unreadable _ => False

namespace Line

variable {kind : Kind} {kind? : String → Option Kind} {line name : String} {token : Token}
  {tokens : List Token} {cause : Cause}

theorem about_of_number (h : number token = .error cause) (name : String) : cause.About name := by
  unfold number at h
  split at h
  · exact nomatch h
  · split at h
    · exact nomatch h
    · obtain rfl := Except.error.inj h
      trivial
  · obtain rfl := Except.error.inj h
    trivial

theorem about_of_length (h : length name token = .error cause) : cause.About name := by
  unfold length at h
  split at h
  · split at h
    · obtain rfl := Except.error.inj h
      rfl
    · split at h
      · exact nomatch h
      · obtain rfl := Except.error.inj h
        rfl
  · obtain rfl := Except.error.inj h
    trivial

theorem about_of_index {l : Nat} (h : index name l token = .error cause) : cause.About name := by
  unfold index at h
  split at h
  · split at h
    · obtain rfl := Except.error.inj h
      rfl
    · split at h
      · exact nomatch h
      · obtain rfl := Except.error.inj h
        rfl
  · obtain rfl := Except.error.inj h
    trivial

theorem about_of_pairs {l : Nat} {found : Array (Nat × Float)}
    (h : pairs name l found tokens = .error cause) : cause.About name := by
  -- Induction along the recursion of `pairs`, which goes through the groups.
  fun_induction pairs name l found tokens with
  | case1 found => contradiction
  | case2 found i x rest ih =>
    rcases bind_eq_error_iff.mp h with h | ⟨i, -, h⟩
    · exact about_of_index h
    · rcases bind_eq_error_iff.mp h with h | ⟨x, -, h⟩
      · exact about_of_number h name
      · exact ih i x h
  | case3 found tokens hne hshape =>
    obtain rfl := Except.error.inj h
    rfl

theorem about_of_setting (h : setting kind name tokens = .error cause) : cause.About name := by
  unfold setting at h
  split at h
  · rcases bind_eq_error_iff.mp h with h | ⟨x, -, h⟩
    · exact about_of_number h name
    · exact nomatch h
  · obtain rfl := Except.error.inj h
    rfl
  · obtain rfl := Except.error.inj h
    rfl
  · rcases bind_eq_error_iff.mp h with h | ⟨l, -, h⟩
    · exact about_of_length h
    · rcases bind_eq_error_iff.mp h with h | ⟨ps, -, h⟩
      · exact about_of_pairs h
      · exact nomatch h

/-- What is wrong with a line is about the first word of the line, or about one of its tokens. -/
theorem about_of_read_eq_error (h : read kind? line = .error cause) :
    ∃ word, word? line = some word ∧ cause.About word := by
  unfold read at h
  split at h
  · exact nomatch h
  · next word hword =>
    refine ⟨word, hword, ?_⟩
    split at h
    · exact nomatch h
    · split at h
      · obtain rfl := Except.error.inj h
        trivial
      · split at h
        · split at h
          · next hname => exact about_of_setting (map_eq_error_iff.mp h)
          · obtain rfl := Except.error.inj h
            rfl
        · obtain rfl := Except.error.inj h
          rfl

end Line

end Values

end Reckon
