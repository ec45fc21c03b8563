/-!
# Kinds of tokens

The symbols, the classes of tokens whose texts vary, the sixteen reserved words, and the end of the source.
-/

namespace Reckon

inductive Keyword where
  | and | «class» | «else» | false | «for» | «fun» | «if» | nil | or | print | «return» | super | this | true | var
  | «while»
deriving DecidableEq, Repr

inductive Kind where
  | leftParen | rightParen | leftBrace | rightBrace | comma | dot | minus | plus | semicolon | slash | star
  | bang | bangEqual | equal | equalEqual | greater | greaterEqual | less | lessEqual
  | identifier | string | number
  | keyword (word : Keyword)
  | eof
deriving DecidableEq, Repr, Inhabited

namespace Keyword

def all : List Keyword :=
  [.and, .class, .else, .false, .for, .fun, .if, .nil, .or, .print, .return, .super, .this, .true, .var, .while]

/-- The word as it is written. -/
def text : Keyword → String
  | .and => "and"
  | .class => "class"
  | .else => "else"
  | .false => "false"
  | .for => "for"
  | .fun => "fun"
  | .if => "if"
  | .nil => "nil"
  | .or => "or"
  | .print => "print"
  | .return => "return"
  | .super => "super"
  | .this => "this"
  | .true => "true"
  | .var => "var"
  | .while => "while"

def name : Keyword → String
  | .and => "And"
  | .class => "Class"
  | .else => "Else"
  | .false => "False"
  | .for => "For"
  | .fun => "Fun"
  | .if => "If"
  | .nil => "Nil"
  | .or => "Or"
  | .print => "Print"
  | .return => "Return"
  | .super => "Super"
  | .this => "This"
  | .true => "True"
  | .var => "Var"
  | .while => "While"

/-- The word, if the letters are the given ending. -/
def ending? (ending : String) (word : Keyword) (cs : List Char) : Option Keyword :=
  if cs = ending.toList then some word else none

/-- The reserved word with these letters, if there is one: the first letters leave one word, whose ending is compared. -/
def ofLetters? : List Char → Option Keyword
  | 'a' :: cs => ending? "nd" .and cs
  | 'c' :: cs => ending? "lass" .class cs
  | 'e' :: cs => ending? "lse" .else cs
  | 'f' :: 'a' :: cs => ending? "lse" .false cs
  | 'f' :: 'o' :: cs => ending? "r" .for cs
  | 'f' :: 'u' :: cs => ending? "n" .fun cs
  | 'i' :: cs => ending? "f" .if cs
  | 'n' :: cs => ending? "il" .nil cs
  | 'o' :: cs => ending? "r" .or cs
  | 'p' :: cs => ending? "rint" .print cs
  | 'r' :: cs => ending? "eturn" .return cs
  | 's' :: cs => ending? "uper" .super cs
  | 't' :: 'h' :: cs => ending? "is" .this cs
  | 't' :: 'r' :: cs => ending? "ue" .true cs
  | 'v' :: cs => ending? "ar" .var cs
  | 'w' :: cs => ending? "hile" .while cs
  | _ => none

theorem mem_all (word : Keyword) : word ∈ all := by
  cases word <;> decide

theorem of_ending?_eq_some {ending : String} {word found : Keyword} {cs : List Char}
    (h : ending? ending word cs = some found) : cs = ending.toList ∧ found = word := by
  unfold ending? at h
  split at h
  · rename_i hcs
    exact ⟨hcs, (Option.some.inj h).symm⟩
  · cases h

theorem text_of_ofLetters? {cs : List Char} {word : Keyword} (h : ofLetters? cs = some word) :
    word.text.toList = cs := by
  unfold ofLetters? at h
  split at h
  case h_17 => cases h
  all_goals
    obtain ⟨rfl, rfl⟩ := of_ending?_eq_some h
    simp [text]

theorem ofLetters?_text (word : Keyword) : ofLetters? word.text.toList = some word := by
  cases word <;> decide +kernel

end Keyword

namespace Kind

def all : List Kind :=
  [.leftParen, .rightParen, .leftBrace, .rightBrace, .comma, .dot, .minus, .plus, .semicolon, .slash, .star,
   .bang, .bangEqual, .equal, .equalEqual, .greater, .greaterEqual, .less, .lessEqual,
   .identifier, .string, .number] ++ Keyword.all.map .keyword ++ [.eof]

/-- The text of the kind: the symbol or the word itself, or what it is called where texts vary. -/
def text : Kind → String
  | .leftParen => "("
  | .rightParen => ")"
  | .leftBrace => "\x7b"
  | .rightBrace => "\x7d"
  | .comma => ","
  | .dot => "."
  | .minus => "-"
  | .plus => "+"
  | .semicolon => ";"
  | .slash => "/"
  | .star => "*"
  | .bang => "!"
  | .bangEqual => "!="
  | .equal => "="
  | .equalEqual => "=="
  | .greater => ">"
  | .greaterEqual => ">="
  | .less => "<"
  | .lessEqual => "<="
  | .identifier => "identifier"
  | .string => "string"
  | .number => "number"
  | .keyword word => word.text
  | .eof => "eof"

/-- What the kind is called in listings of tokens. -/
def name : Kind → String
  | .leftParen => "LeftParen"
  | .rightParen => "RightParen"
  | .leftBrace => "LeftBrace"
  | .rightBrace => "RightBrace"
  | .comma => "Comma"
  | .dot => "Dot"
  | .minus => "Minus"
  | .plus => "Plus"
  | .semicolon => "Semicolon"
  | .slash => "Slash"
  | .star => "Star"
  | .bang => "Bang"
  | .bangEqual => "BangEqual"
  | .equal => "Equal"
  | .equalEqual => "EqualEqual"
  | .greater => "Greater"
  | .greaterEqual => "GreaterEqual"
  | .less => "Less"
  | .lessEqual => "LessEqual"
  | .identifier => "Identifier"
  | .string => "String"
  | .number => "Number"
  | .keyword word => word.name
  | .eof => "Eof"

def ofName? (text : String) : Option Kind :=
  all.find? fun kind => kind.name = text

theorem mem_all (kind : Kind) : kind ∈ all := by
  cases kind with
  | keyword word => cases word <;> decide
  | _ => decide

theorem ofName?_name (kind : Kind) : ofName? kind.name = some kind := by
  cases kind with
  | keyword word => cases word <;> decide +kernel
  | _ => decide +kernel

end Kind
end Reckon
