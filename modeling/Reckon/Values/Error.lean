import Reckon.Values.Token

/-!
# What can go wrong while values are loaded

A line of a values source is malformed in one of several ways, writes outside its array, or cannot
be read at all. What a load reports is one such error, or the row of them if there are several.
-/

namespace Reckon.Values

/-- The greatest length that a values line may declare for an array. -/
def greatestLength : Nat := 0x1000000

/-- What makes a line malformed. -/
inductive Defect where
  /-- A piece of the line is no token. -/
  | unexpectedText (text : String)
  /-- The first token is not the first word. -/
  | wrongStart (word : String)
  /-- A scalar is not given exactly one value. -/
  | notOneValue (name : String)
  /-- An array is given no length. -/
  | missingLength (name : String)
  /-- The length of an array is a token of another kind. -/
  | lengthNotInteger (found : Token)
  /-- The length of an array is negative. -/
  | negativeLength (name : String) (length : Int)
  /-- The length of an array is above `greatestLength`. -/
  | lengthAboveLimit (name : String) (length : Nat)
  /-- What follows the length of an array is no pair of an index and a value. -/
  | pairExpected (name : String)
  /-- The index of a pair is a token of another kind. -/
  | indexNotInteger (found : Token)
  /-- A value is a token of another kind. -/
  | notNumber (found : Token)
  /-- A value is an integer without a double of its own. -/
  | tooLarge (value : Int)
  /-- A defect in the words of whoever has found it; no line is read as one. -/
  | described (details : String)

/-- What makes a line malformed, in words. -/
def Defect.message : Defect → String
  | unexpectedText text => s!"unexpected '{text}'"
  | wrongStart word => s!"expected the line to start with '{word}'"
  | notOneValue name => s!"scalar '{name}' takes exactly one value"
  | missingLength name => s!"array '{name}' is missing its length"
  | lengthNotInteger found => s!"array length must be an integer but found '{found.text}'"
  | negativeLength name length => s!"array '{name}' has negative length {length}"
  | lengthAboveLimit name length =>
    s!"array '{name}' declares length {length}, above the limit of {greatestLength}"
  | pairExpected name => s!"expected '(index,value)' pairs after the length of '{name}'"
  | indexNotInteger found => s!"array index must be an integer but found '{found.text}'"
  | notNumber found => s!"expected a number but found '{found.text}'"
  | tooLarge value => s!"{value} is too large to represent exactly"
  | described details => details

/-- Why a line cannot be read. -/
inductive ReadFault where
  /-- Its bytes are not UTF-8. -/
  | notUtf8
  /-- The source has failed. -/
  | failed (reason : String)

/-- Why a line cannot be read, in words. -/
def ReadFault.message : ReadFault → String
  | notUtf8 => "stream did not contain valid UTF-8"
  | failed reason => reason

/-- What is wrong with a line. -/
inductive Cause where
  /-- The line has not the form of a values line. -/
  | malformed (defect : Defect)
  /-- A pair writes outside its array. -/
  | indexOutOfRange (name : String) (index : Int) (length : Nat)
  /-- The line cannot be read, nor anything after it. -/
  | unreadable (fault : ReadFault)

/-- What is wrong with a line, in words. -/
def Cause.message : Cause → String
  | malformed defect => s!"Malformed value line: {defect.message}."
  | indexOutOfRange name index length =>
    s!"Index {index} is out of range for array '{name}' of length {length}."
  | unreadable fault => s!"Failed to read values: {fault.message}."

/-- What a load reports. -/
inductive LoadError where
  /-- One line, counted from one, has failed. -/
  | onLine (number : Nat) (cause : Cause)
  /-- Several lines have failed. -/
  | onLines (errors : List LoadError)

namespace LoadError

/-- The one error that stands for a row of them, if there are any. -/
def fold : List LoadError → Except LoadError Unit
  | [] => .ok ()
  | [error] => .error error
  | errors => .error (onLines errors)

/-- The errors that one error stands for. -/
def errors : LoadError → List LoadError
  | onLines errors => errors
  | error => [error]

theorem fold_eq_ok_iff {errors : List LoadError} : fold errors = .ok () ↔ errors = [] := by
  unfold fold
  split <;> simp_all

mutual

/-- The message of an error; that of several lines lists the messages of all of them. -/
def message : LoadError → String
  | onLine number cause => s!"Error on line {number}: {cause.message}"
  | onLines errors =>
    appendMessages s!"{errors.length} value lines could not be loaded:" errors

/-- A text with the messages of a row of errors after it, each on an indented line of its own. -/
def appendMessages (text : String) : List LoadError → String
  | [] => text
  | error :: errors => appendMessages (text ++ "\n  " ++ error.message) errors

end

end LoadError

end Reckon.Values
