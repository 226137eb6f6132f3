/-!
# Settings Files

A settings file is a list of keys with values, a line each. This module reads as much of the
TOML format as settings can use: texts, truth values, empty tables and arrays, and a table
with one key that holds one of these. A file with any other value is refused.

Reading has two stages. The characters are cut into lexemes, which takes care of comments,
quotes and escapes; the lexemes are then read statement by statement.

## Main definitions

* `Toml.lexemes?`: the lexemes of a text.
* `Toml.entries?`: the keys of a text with their values.
-/

namespace FlatLisp.Toml

/-- The pieces of a settings file. Blanks and comments are not among them. -/
inductive Lexeme where
  /-- The end of a line. -/
  | lineEnd
  /-- The mark between a key and its value. -/
  | equals
  /-- The mark between the parts of a key. -/
  | dot
  /-- The opening mark of an array or of a header. -/
  | openBracket
  /-- The closing mark of an array or of a header. -/
  | closeBracket
  /-- The opening mark of a table. -/
  | openBrace
  /-- The closing mark of a table. -/
  | closeBrace
  /-- A word without quotes. -/
  | word (content : String)
  /-- A text in quotes, which may run over several lines. -/
  | quoted (content : String) (multiline : Bool)
deriving DecidableEq, Repr

/-- Takes a list apart from the front by a step that is given the first element and the rest,
and that leaves what is still to be taken apart. -/
def takeApart? {α β : Type} (step : α → List α → Option (Option β × List α)) :
    List α → Option (List β)
  | [] => some []
  | a :: rest =>
    match step a rest with
    | none => none
    | some (found, left) =>
      if left.length ≤ rest.length then
        (takeApart? step left).map fun more => found.toList ++ more
      else
        none
termination_by l => l.length
decreasing_by simp only [List.length_cons]; omega

/-! ### Quoted texts -/

/-- Whether a character may stand in a text or a comment: no control but the tab. -/
def isTextChar (c : Char) : Bool :=
  c == '\t' || (0x20 ≤ c.toNat && c.toNat != 0x7F)

/-- The value of a hexadecimal digit. -/
def hexDigit? (c : Char) : Option Nat :=
  if '0' ≤ c && c ≤ '9' then some (c.toNat - '0'.toNat)
  else if 'a' ≤ c && c ≤ 'f' then some (c.toNat - 'a'.toNat + 10)
  else if 'A' ≤ c && c ≤ 'F' then some (c.toNat - 'A'.toNat + 10)
  else none

/-- The character that a backslash and a letter stand for. -/
def escaped? (letter : Char) : Option Char :=
  if letter == 'b' then some '\x08'
  else if letter == 't' then some '\t'
  else if letter == 'n' then some '\n'
  else if letter == 'f' then some '\x0c'
  else if letter == 'r' then some '\r'
  else if letter == '"' then some '"'
  else if letter == '\\' then some '\\'
  else none

/-- The kind of quotes around a text. -/
structure Quotes where
  /-- The quote. -/
  mark : Char
  /-- A backslash has its meaning. -/
  escapes : Bool
  /-- There are three quotes on either side, and the text may run over several lines. -/
  multiline : Bool
deriving DecidableEq, Repr

/-- What stands before the next character of a text. -/
inductive Mode where
  /-- Nothing special. -/
  | plain
  /-- So many quotes, of which three would end the text. -/
  | quotes (count : Nat)
  /-- A carriage return, which must be part of the end of a line. -/
  | carriage
  /-- A backslash. -/
  | backslash
  /-- A backslash and blanks, which must lead to the end of a line. -/
  | blanks
  /-- A backslash and the end of a line; white space up to the next character is dropped. -/
  | dropping
  /-- A carriage return after a backslash. -/
  | droppedCarriage
  /-- An escape by code point that lacks `missing` more digits after the next one. -/
  | code (missing value : Nat)
deriving DecidableEq, Repr

/-- What the next character makes of a text. -/
inductive Step where
  /-- The text goes on. -/
  | more (mode : Mode) (content : String)
  /-- The text has ended before the character. -/
  | before (content : String)
  /-- The text ends with the character. -/
  | within (content : String)
  /-- The character may not stand here. -/
  | refused

/-- A character of a text where nothing special stands before it. -/
def plainStep (q : Quotes) (content : String) (c : Char) : Step :=
  if c == q.mark then
    if q.multiline then .more (.quotes 1) content else .within content
  else if c == '\\' && q.escapes then .more .backslash content
  else if c == '\n' && q.multiline then .more .plain (content.push c)
  else if c == '\r' && q.multiline then .more .carriage content
  else if isTextChar c then .more .plain (content.push c)
  else .refused

/-- So many quotes. -/
def quoteMarks (q : Quotes) (count : Nat) : String :=
  String.ofList (List.replicate count q.mark)

/-- The next character of a text. A run of up to five quotes ends a text of several lines: the
last three end it, and those before them belong to it. -/
def step (q : Quotes) (mode : Mode) (content : String) (c : Char) : Step :=
  match mode with
  | .plain => plainStep q content c
  | .quotes count =>
    if c == q.mark then
      if count = 4 then .within (content ++ quoteMarks q 2) else .more (.quotes (count + 1)) content
    else if 3 ≤ count then .before (content ++ quoteMarks q (count - 3))
    else plainStep q (content ++ quoteMarks q count) c
  | .carriage => if c == '\n' then .more .plain (content.push c) else .refused
  | .backslash =>
    match escaped? c with
    | some d => .more .plain (content.push d)
    | none =>
      if c == 'u' then .more (.code 3 0) content
      else if c == 'U' then .more (.code 7 0) content
      else if q.multiline && c == '\n' then .more .dropping content
      else if q.multiline && c == '\r' then .more .droppedCarriage content
      else if q.multiline && (c == ' ' || c == '\t') then .more .blanks content
      else .refused
  | .blanks =>
    if c == '\n' then .more .dropping content
    else if c == '\r' then .more .droppedCarriage content
    else if c == ' ' || c == '\t' then .more .blanks content
    else .refused
  | .dropping =>
    if c == ' ' || c == '\t' || c == '\n' then .more .dropping content
    else if c == '\r' then .more .droppedCarriage content
    else plainStep q content c
  | .droppedCarriage => if c == '\n' then .more .dropping content else .refused
  | .code missing value =>
    match hexDigit? c with
    | none => .refused
    | some digit =>
      let value := 16 * value + digit
      if missing = 0 then
        if value.isValidChar then .more .plain (content.push (Char.ofNat value)) else .refused
      else
        .more (.code (missing - 1) value) content

/-- Reads a text up to its closing quotes: its content, and what follows it. -/
def text? (q : Quotes) (mode : Mode) (content : String) : List Char → Option (String × List Char)
  | [] =>
    match mode with
    | .quotes count => if 3 ≤ count then some (content ++ quoteMarks q (count - 3), []) else none
    | _ => none
  | c :: rest =>
    match step q mode content c with
    | .more mode content => text? q mode content rest
    | .before content => some (content, c :: rest)
    | .within content => some (content, rest)
    | .refused => none

/-- Drops the end of a line at the beginning of a text of several lines. -/
def dropLineEnd : List Char → List Char
  | '\n' :: rest => rest
  | '\r' :: '\n' :: rest => rest
  | rest => rest

/-- Reads a text that opens with a quote, which has been taken off. -/
def quoted? (mark : Char) (escapes : Bool) (rest : List Char) : Option (Lexeme × List Char) :=
  match rest with
  | second :: third :: more =>
    if second == mark && third == mark then
      (text? ⟨mark, escapes, true⟩ .plain "" (dropLineEnd more)).map fun (content, left) =>
        (.quoted content true, left)
    else
      (text? ⟨mark, escapes, false⟩ .plain "" rest).map fun (content, left) =>
        (.quoted content false, left)
  | short =>
    (text? ⟨mark, escapes, false⟩ .plain "" short).map fun (content, left) =>
      (.quoted content false, left)

/-! ### Lexemes -/

/-- Whether a character may stand in a word without quotes. -/
def isWordChar (c : Char) : Bool :=
  c.isAlphanum || c == '_' || c == '-'

/-- The apostrophe, the quote of texts without escapes. -/
def apostrophe : Char := '\x27'

/-- Takes a lexeme, a blank or a comment off a text that begins with a given character. -/
def lexeme? (c : Char) (rest : List Char) : Option (Option Lexeme × List Char) :=
  if c == ' ' || c == '\t' then some (none, rest)
  else if c == '\n' then some (some .lineEnd, rest)
  else if c == '\r' then
    match rest with
    | '\n' :: rest => some (some .lineEnd, rest)
    | _ => none
  else if c == '#' then some (none, rest.dropWhile isTextChar)
  else if c == '=' then some (some .equals, rest)
  else if c == '.' then some (some .dot, rest)
  else if c == '[' then some (some .openBracket, rest)
  else if c == ']' then some (some .closeBracket, rest)
  else if c == '\x7b' then some (some .openBrace, rest)
  else if c == '\x7d' then some (some .closeBrace, rest)
  else if c == '"' then (quoted? c true rest).map fun (lexeme, left) => (some lexeme, left)
  else if c == apostrophe then (quoted? c false rest).map fun (lexeme, left) => (some lexeme, left)
  else if isWordChar c then
    some (some (.word (String.ofList (c :: rest.takeWhile isWordChar))), rest.dropWhile isWordChar)
  else none

/-- The lexemes of a text. A byte order mark at its beginning is dropped. -/
def lexemes? (text : List Char) : Option (List Lexeme) :=
  match text with
  | '\ufeff' :: rest => takeApart? lexeme? rest
  | _ => takeApart? lexeme? text

/-! ### Statements -/

/-- A value, as far as a setting can use it. -/
inductive Value where
  /-- A text. -/
  | text (content : String)
  /-- A truth value. -/
  | flag (value : Bool)
  /-- A table or an array with nothing in it. -/
  | nothing
  /-- A table with one key and nothing under it. -/
  | choice (name : String)
deriving DecidableEq, Repr

/-- A statement of a settings file. -/
inductive Statement where
  /-- The keys that follow are under this one. -/
  | header (path : List String)
  /-- A key has a value. -/
  | assign (path : List String) (value : Value)
deriving DecidableEq, Repr

/-- A part of a key: a word, or a text in quotes on one line. -/
def Lexeme.key? : Lexeme → Option String
  | word content => some content
  | quoted content false => some content
  | _ => none

/-- Takes a key off the front, with its parts between dots. -/
def path? : List Lexeme → Option (List String × List Lexeme)
  | part :: .dot :: rest =>
    match part.key?, path? rest with
    | some name, some (names, left) => some (name :: names, left)
    | _, _ => none
  | part :: rest => part.key?.map fun name => ([name], rest)
  | [] => none

/-- Takes a table or an array with nothing in it off the front. Lines may end in an array. -/
def nothing? : List Lexeme → Option (List Lexeme)
  | .openBrace :: .closeBrace :: rest => some rest
  | .openBracket :: rest =>
    match rest.dropWhile fun lexeme => lexeme = .lineEnd with
    | .closeBracket :: left => some left
    | _ => none
  | _ => none

/-- Takes a value off the front. -/
def value? (lexemes : List Lexeme) : Option (Value × List Lexeme) :=
  match nothing? lexemes with
  | some left => some (.nothing, left)
  | none =>
    match lexemes with
    | .quoted content _ :: left => some (.text content, left)
    | .word "true" :: left => some (.flag true, left)
    | .word "false" :: left => some (.flag false, left)
    | .openBrace :: key :: .equals :: rest =>
      match key.key?, nothing? rest with
      | some name, some (.closeBrace :: left) => some (.choice name, left)
      | _, _ => none
    | _ => none

/-- What is left after a statement, which must end its line. -/
def afterStatement? : List Lexeme → Option (List Lexeme)
  | [] => some []
  | .lineEnd :: left => some left
  | _ => none

/-- Takes a statement or an empty line off a row of lexemes. -/
def statement? (first : Lexeme) (rest : List Lexeme) : Option (Option Statement × List Lexeme) :=
  match first with
  | .lineEnd => some (none, rest)
  | .openBracket =>
    match path? rest with
    | some (path, .closeBracket :: rest) =>
      (afterStatement? rest).map fun left => (some (.header path), left)
    | _ => none
  | _ =>
    match path? (first :: rest) with
    | some (path, .equals :: rest) =>
      match value? rest with
      | some (value, rest) =>
        (afterStatement? rest).map fun left => (some (.assign path value), left)
      | none => none
    | _ => none

/-! ### Entries -/

/-- The keys of a row of statements under `header`, each with its value. A header of two parts
is itself a key with an empty table. -/
def assigned (header : List String) : List Statement → List (List String × Value)
  | [] => []
  | .assign path value :: rest => (header ++ path, value) :: assigned header rest
  | .header path :: rest =>
    if path.length = 1 then assigned path rest
    else (path, .nothing) :: assigned path rest

/-- A key of one part with its value; a key of two parts with nothing under it is a choice. -/
def entry? : List String × Value → Option (String × Value)
  | ([key], value) => some (key, value)
  | ([key, name], .nothing) => some (key, .choice name)
  | _ => none

/-- The headers of one part. -/
def openings (statements : List Statement) : List String :=
  statements.filterMap fun
    | .header [key] => some key
    | _ => none

/-- The first parts of the keys that stand before any header. -/
def roots : List Statement → List String
  | .assign (key :: _) _ :: rest => key :: roots rest
  | _ => []

/-- The keys of a text with their values. No key is given twice, no header is repeated or has
the name of a key before it, and something stands under each header. -/
def entries? (text : String) : Option (List (String × Value)) := do
  let lexemes ← lexemes? text.toList
  let statements ← takeApart? statement? lexemes
  let entries ← (assigned [] statements).mapM entry?
  let keys := entries.map Prod.fst
  let opened := openings statements
  if keys.Nodup ∧ opened.Nodup ∧ ∀ key ∈ opened, key ∈ keys ∧ key ∉ roots statements then
    some entries
  else
    none

end FlatLisp.Toml
