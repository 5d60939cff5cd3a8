/-!
# Terminals

The classes of tokens. Keywords are read as names wherever the grammar has no place for them.
-/
namespace Debundle

inductive Terminal where
  | kwVar | kwIf | kwElse | kwDo | kwWhile | kwFor | kwContinue | kwBreak | kwReturn | kwWith
  | kwSwitch | kwCase | kwDefault | kwThrow | kwTry | kwCatch | kwFinally | kwDebugger
  | kwFunction | kwNew | kwThis | kwNull | kwTrue | kwFalse | kwDelete | kwVoid | kwTypeof
  | kwInstanceof | kwIn
  | regex | string | number | name
  | ushrEqual | shlEqual | shrEqual | equalEqualEqual | bangEqualEqual | ushr | plusEqual
  | minusEqual | starEqual | slashEqual | percentEqual | ampEqual | caretEqual | barEqual
  | barBar | ampAmp | equalEqual | bangEqual | lessEqual | greaterEqual | shl | shr | plusPlus
  | minusMinus | amp | bang | caret | colon | comma | dot | equal | lbrace | less | lparen
  | lbracket | minus | greater | percent | plus | question | rbrace | rparen | rbracket
  | semicolon | slash | star | tilde | bar
  | finish
  deriving DecidableEq

namespace Terminal

/-- Keywords with the words that stand for them. -/
def keywords : List (Terminal × List String) :=
  [(.kwVar, ["var", "let", "const"]), (.kwIf, ["if"]), (.kwElse, ["else"]), (.kwDo, ["do"]),
   (.kwWhile, ["while"]), (.kwFor, ["for"]), (.kwContinue, ["continue"]), (.kwBreak, ["break"]),
   (.kwReturn, ["return"]), (.kwWith, ["with"]), (.kwSwitch, ["switch"]), (.kwCase, ["case"]),
   (.kwDefault, ["default"]), (.kwThrow, ["throw"]), (.kwTry, ["try"]), (.kwCatch, ["catch"]),
   (.kwFinally, ["finally"]), (.kwDebugger, ["debugger"]), (.kwFunction, ["function"]),
   (.kwNew, ["new"]), (.kwThis, ["this"]), (.kwNull, ["null"]), (.kwTrue, ["true"]),
   (.kwFalse, ["false"]), (.kwDelete, ["delete"]), (.kwVoid, ["void"]), (.kwTypeof, ["typeof"]),
   (.kwInstanceof, ["instanceof"]), (.kwIn, ["in"])]

/-- Tokens with a text of their own, longer texts first. -/
def punctuators : List (Terminal × String) :=
  [(.ushrEqual, ">>>="), (.shlEqual, "<<="), (.shrEqual, ">>="), (.equalEqualEqual, "==="),
   (.bangEqualEqual, "!=="), (.ushr, ">>>"), (.plusEqual, "+="), (.minusEqual, "-="),
   (.starEqual, "*="), (.slashEqual, "/="), (.percentEqual, "%="), (.ampEqual, "&="),
   (.caretEqual, "^="), (.barEqual, "|="), (.barBar, "||"), (.ampAmp, "&&"), (.equalEqual, "=="),
   (.bangEqual, "!="), (.lessEqual, "<="), (.greaterEqual, ">="), (.shl, "<<"), (.shr, ">>"),
   (.plusPlus, "++"), (.minusMinus, "--"), (.amp, "&"), (.bang, "!"), (.caret, "^"), (.colon, ":"),
   (.comma, ","), (.dot, "."), (.equal, "="), (.lbrace, "\x7b"), (.less, "<"), (.lparen, "("),
   (.lbracket, "["), (.minus, "-"), (.greater, ">"), (.percent, "%"), (.plus, "+"),
   (.question, "?"), (.rbrace, "\x7d"), (.rparen, ")"), (.rbracket, "]"), (.semicolon, ";"),
   (.slash, "/"), (.star, "*"), (.tilde, "~"), (.bar, "|")]

/-- Every terminal except the end of input, in the order in which they are tried. -/
def order : List Terminal :=
  keywords.map Prod.fst ++ [.regex, .string, .number, .name] ++ punctuators.map Prod.fst

/-- The name of a terminal in the log. -/
def title : Terminal → String
  | .kwVar => "VAR_KIND"
  | .kwIf => "_IF"
  | .kwElse => "_ELSE"
  | .kwDo => "_DO"
  | .kwWhile => "_WHILE"
  | .kwFor => "_FOR"
  | .kwContinue => "_CONTINUE"
  | .kwBreak => "_BREAK"
  | .kwReturn => "_RETURN"
  | .kwWith => "_WITH"
  | .kwSwitch => "_SWITCH"
  | .kwCase => "_CASE"
  | .kwDefault => "_DEFAULT"
  | .kwThrow => "_THROW"
  | .kwTry => "_TRY"
  | .kwCatch => "_CATCH"
  | .kwFinally => "_FINALLY"
  | .kwDebugger => "_DEBUGGER"
  | .kwFunction => "_FUNCTION"
  | .kwNew => "_NEW"
  | .kwThis => "_THIS"
  | .kwNull => "_NULL"
  | .kwTrue => "_TRUE"
  | .kwFalse => "_FALSE"
  | .kwDelete => "DELETE"
  | .kwVoid => "VOID"
  | .kwTypeof => "TYPEOF"
  | .kwInstanceof => "INSTANCEOF"
  | .kwIn => "IN"
  | .regex => "REGEX"
  | .string => "STRING"
  | .number => "NUMBER"
  | .name => "NAME"
  | .ushrEqual => "__ANON_7"
  | .shlEqual => "__ANON_5"
  | .shrEqual => "__ANON_6"
  | .equalEqualEqual => "__ANON_15"
  | .bangEqualEqual => "__ANON_16"
  | .ushr => "__ANON_21"
  | .plusEqual => "__ANON_0"
  | .minusEqual => "__ANON_1"
  | .starEqual => "__ANON_2"
  | .slashEqual => "__ANON_3"
  | .percentEqual => "__ANON_4"
  | .ampEqual => "__ANON_8"
  | .caretEqual => "__ANON_9"
  | .barEqual => "__ANON_10"
  | .barBar => "__ANON_11"
  | .ampAmp => "__ANON_12"
  | .equalEqual => "__ANON_13"
  | .bangEqual => "__ANON_14"
  | .lessEqual => "__ANON_17"
  | .greaterEqual => "__ANON_18"
  | .shl => "__ANON_19"
  | .shr => "__ANON_20"
  | .plusPlus => "__ANON_22"
  | .minusMinus => "__ANON_23"
  | .amp => "AMPERSAND"
  | .bang => "BANG"
  | .caret => "CIRCUMFLEX"
  | .colon => "COLON"
  | .comma => "COMMA"
  | .dot => "DOT"
  | .equal => "EQUAL"
  | .lbrace => "LBRACE"
  | .less => "LESSTHAN"
  | .lparen => "LPAR"
  | .lbracket => "LSQB"
  | .minus => "MINUS"
  | .greater => "MORETHAN"
  | .percent => "PERCENT"
  | .plus => "PLUS"
  | .question => "QMARK"
  | .rbrace => "RBRACE"
  | .rparen => "RPAR"
  | .rbracket => "RSQB"
  | .semicolon => "SEMICOLON"
  | .slash => "SLASH"
  | .star => "STAR"
  | .tilde => "TILDE"
  | .bar => "VBAR"
  | .finish => "$END"

end Terminal

end Debundle
