import Debundle.Grammar.Automaton.Row

/-!
# The states of the automaton

One row a state, in the order of their numbers. Rows share their lists where they agree.
-/
namespace Debundle.Automaton

def valueTokens : List (Terminal × Nat) :=
  [(.kwThis, 64), (.kwNull, 68), (.kwTrue, 69), (.kwFalse, 70), (.regex, 67), (.string, 66),
   (.number, 65), (.lparen, 72), (.lbracket, 73)]

def prefixTokens : List (Terminal × Nat) :=
  [(.kwDelete, 55), (.kwVoid, 56), (.kwTypeof, 57), (.plusPlus, 58), (.minusMinus, 59),
   (.bang, 63), (.minus, 61), (.plus, 60), (.tilde, 62)]

def statementTokens : List (Terminal × Nat) :=
  [(.kwVar, 42), (.kwIf, 28), (.kwDo, 29), (.kwWhile, 30), (.kwFor, 31), (.kwContinue, 32),
   (.kwBreak, 33), (.kwReturn, 34), (.kwWith, 35), (.kwSwitch, 36), (.kwThrow, 38), (.kwTry, 39),
   (.kwDebugger, 40), (.kwFunction, 41), (.kwNew, 51), (.name, 37), (.lbrace, 24)] ++
  valueTokens ++ prefixTokens

/-- The moves before a statement. -/
def statementStart : List (Terminal × Nat) :=
  (.semicolon, 26) :: statementTokens

/-- The moves before a statement or the brace after the last one. -/
def statementOrBrace (q : Nat) : List (Terminal × Nat) :=
  (.rbrace, q) :: statementStart

/-- The moves after `new`. -/
def calleeStart : List (Terminal × Nat) :=
  [(.kwFunction, 105), (.kwNew, 98), (.name, 106), (.lbrace, 107)] ++ valueTokens

/-- The moves before an expression. -/
def operandStart : List (Terminal × Nat) :=
  calleeStart ++ prefixTokens

/-- The moves before an expression or a terminal in its place. -/
def operandOr (t : Terminal) (q : Nat) : List (Terminal × Nat) :=
  (t, q) :: operandStart

/-- The moves before a key or the brace after the last property. -/
def keyOrBrace (q : Nat) : List (Terminal × Nat) :=
  [(.string, 206), (.number, 207), (.name, 205), (.rbrace, q)]

def statementParts : List (Nonterminal × Nat) :=
  [(.block, 4), (.varStatement, 5), (.declarations, 25), (.emptyStatement, 6),
   (.expressionStatement, 7), (.ifStatement, 8), (.doStatement, 9), (.whileStatement, 10),
   (.forStatement, 11), (.forInStatement, 12), (.forInVarStatement, 13), (.continueStatement, 14),
   (.breakStatement, 15), (.returnStatement, 16), (.withStatement, 17), (.switchStatement, 18),
   (.labeledStatement, 19), (.throwStatement, 20), (.tryStatement, 21), (.debuggerStatement, 22),
   (.functionDeclaration, 23), (.expressionLead, 27), (.assignmentLead, 43), (.conditionalLead, 44),
   (.binaryLead, 46), (.unaryLead, 49), (.unaryOperator, 53), (.updateLead, 52), (.targetLead, 45),
   (.constructionLead, 47), (.memberLead, 50), (.callLead, 48), (.primaryLead, 54), (.array, 71)]

/-- Where a state goes after the statement that it awaits. -/
def toStatement (q : Nat) : List (Nonterminal × Nat) :=
  (.statement, q) :: statementParts

def toStatements (q : Nat) : List (Nonterminal × Nat) :=
  (.statement, 3) :: (statementParts ++ [(.statements, q)])

def primaryParts : List (Nonterminal × Nat) :=
  [(.functionExpression, 102), (.primary, 101), (.primaryLead, 103), (.array, 71), (.object, 104)]

def toConstruction (q member : Nat) : List (Nonterminal × Nat) :=
  (.construction, q) :: (.member, member) :: primaryParts

def operandParts : List (Nonterminal × Nat) :=
  [(.unaryOperator, 100), (.update, 99), (.construction, 94), (.member, 97), (.call, 95)] ++
  primaryParts

def toUnary (q : Nat) : List (Nonterminal × Nat) :=
  (.unary, q) :: (.target, 169) :: operandParts

def toAssignment (q : Nat) : List (Nonterminal × Nat) :=
  [(.assignment, q), (.conditional, 91), (.binary, 93), (.unary, 96), (.target, 92)] ++
  operandParts

def toExpression (q : Nat) : List (Nonterminal × Nat) :=
  (.expression, q) :: toAssignment 90

def toElement (q : Nat) : List (Nonterminal × Nat) :=
  (.element, q) :: toAssignment 172

/-- The terminals that some moves are for. -/
def movedOn (moves : List (Terminal × Nat)) : List Terminal :=
  moves.map Prod.fst

def afterBranch : List Terminal :=
  [.kwCase, .kwDefault, .rbrace]

def afterStatements : List Terminal :=
  movedOn statementStart ++ afterBranch ++ [.finish]

def afterStatement : List Terminal :=
  .kwElse :: afterStatements

def afterBlock : List Terminal :=
  .kwCatch :: .kwFinally :: afterStatement

def afterHandler : List Terminal :=
  .kwFinally :: afterStatement

/-- What comes after a loop before the semicolon that may be left out behind it. -/
def afterLoop : List Terminal :=
  .kwElse :: movedOn statementTokens ++ afterBranch ++ [.finish]

def assigning : List (Terminal × Nat) :=
  [(.ushrEqual, 127), (.shlEqual, 125), (.shrEqual, 126), (.plusEqual, 120), (.minusEqual, 121),
   (.starEqual, 122), (.slashEqual, 123), (.percentEqual, 124), (.ampEqual, 128),
   (.caretEqual, 129), (.barEqual, 130), (.plusPlus, 131), (.minusMinus, 132), (.equal, 119)]

def operating : List (Terminal × Nat) :=
  [(.kwInstanceof, 153), (.kwIn, 154), (.equalEqualEqual, 147), (.bangEqualEqual, 148),
   (.ushr, 157), (.barBar, 140), (.ampAmp, 141), (.equalEqual, 145), (.bangEqual, 146),
   (.lessEqual, 151), (.greaterEqual, 152), (.shl, 155), (.shr, 156), (.amp, 144), (.caret, 143),
   (.less, 149), (.minus, 159), (.greater, 150), (.percent, 162), (.plus, 158), (.slash, 161),
   (.star, 160), (.bar, 142)]

/-- The moves to a property, to a call and to an index. -/
def accessing (dot index : Nat) : List (Terminal × Nat) :=
  [(.dot, dot), (.lparen, 137), (.lbracket, index)]

-- what comes after the parts of an expression with which a statement begins
def afterChain : List Terminal :=
  [.comma, .question, .semicolon]

def afterUnary : List Terminal :=
  movedOn operating ++ afterChain

def afterTarget : List Terminal :=
  movedOn assigning ++ afterUnary

def afterMember : List Terminal :=
  [.dot, .lparen, .lbracket] ++ afterTarget

/-- The same inside of another expression. -/
def inner (ts : List Terminal) : List Terminal :=
  ts ++ [.colon, .rbrace, .rparen, .rbracket]

def afterExpression : List Terminal :=
  [.colon, .comma, .rparen, .rbracket, .semicolon]

def afterAssignment : List Terminal :=
  .rbrace :: afterExpression

def afterFunction : List Terminal :=
  afterStatement ++ inner afterMember

def afterOperator : List Terminal :=
  movedOn operandStart

/-- A state that completes a rule before some terminals. -/
def completes (ts : List Terminal) (rule : Nat) : Row :=
  ⟨[], [(ts, rule)], []⟩

/-- As many states that complete rules that follow each other. -/
def completesEach (ts : List Terminal) (rule count : Nat) : List Row :=
  (List.range' rule count).map (completes ts)

/-- A state that awaits one of some terminals. -/
def awaits (moves : List (Terminal × Nat)) : Row :=
  ⟨moves, [], []⟩

def awaitsStatement (q : Nat) : Row :=
  ⟨statementStart, [], toStatement q⟩

def awaitsAssignment (q : Nat) : Row :=
  ⟨operandStart, [], toAssignment q⟩

def awaitsExpression (q : Nat) : Row :=
  ⟨operandStart, [], toExpression q⟩

/-- A state that awaits an expression or a terminal in its place. -/
def awaitsMaybe (t : Terminal) (present absent : Nat) : Row :=
  ⟨operandOr t absent, [], toExpression present⟩

/-- A state after an expression that a comma may lengthen. -/
def awaitsAfter (t : Terminal) (q : Nat) : Row :=
  ⟨[(.comma, 186), (t, q)], [], []⟩

def rows0 : List Row :=
  [⟨statementStart, [([.finish], 1)], (.program, 1) :: toStatements 2⟩, ⟨[], [], []⟩,
    ⟨statementStart, [([.finish], 0)], toStatement 74⟩, completes afterStatements 202] ++
  completesEach afterStatement 2 20 ++
  [⟨statementOrBrace 76, [], toStatements 75⟩, awaits [(.semicolon, 77)],
    completes afterStatement 29, awaits [(.comma, 79), (.semicolon, 78)], awaits [(.lparen, 80)],
    awaitsStatement 81, awaits [(.lparen, 82)], awaits [(.lparen, 83)],
    awaits [(.name, 84), (.semicolon, 85)], awaits [(.name, 86), (.semicolon, 87)],
    awaitsMaybe .semicolon 88 89, awaits [(.lparen, 108)], awaits [(.lparen, 109)],
    ⟨[(.colon, 110)], [(afterMember, 179)], []⟩, awaitsExpression 111,
    ⟨[(.lbrace, 24)], [], [(.block, 112)]⟩, awaits [(.semicolon, 113)], awaits [(.name, 114)],
    ⟨[(.name, 116)], [], [(.declaration, 115)]⟩, completes [.comma, .semicolon] 79,
    completes [.comma, .semicolon] 83,
    ⟨assigning, [(afterUnary, 143)], [(.assignmentOperator, 117), (.updateOperator, 118)]⟩,
    ⟨[(.question, 133)], [([.comma, .semicolon], 99)], []⟩, completes afterTarget 149,
    ⟨accessing 135 136, [(afterTarget, 150)], [(.arguments, 134)]⟩,
    ⟨operating, [(afterChain, 104)], [(.binaryOperator, 139), (.operations, 138)]⟩,
    ⟨accessing 163 164, [(afterTarget, 153)], [(.arguments, 165)]⟩,
    ⟨calleeStart, [], toConstruction 166 167⟩, completes afterUnary 130,
    ⟨operandStart, [], toUnary 168⟩, completes afterMember 160] ++
  completesEach afterOperator 132 5

def rows1 : List Row :=
  completesEach afterOperator 137 4 ++
  [completes (inner afterMember) 178] ++
  completesEach (inner afterMember) 180 7 ++
  [awaitsExpression 170, ⟨operandStart, [([.comma, .rbracket], 191)], toElement 171⟩,
    completes afterStatements 203, ⟨statementOrBrace 173, [], toStatement 74⟩,
    completes afterBlock 23, completes afterStatement 24, completes afterStatement 30,
    awaitsAssignment 174, awaitsExpression 175, awaits [(.kwWhile, 176)], awaitsExpression 177,
    ⟨(.kwVar, 181) :: operandOr .semicolon 179, [],
      (.declarations, 182) :: (.forInit, 178) :: toExpression 180⟩,
    awaits [(.semicolon, 183)], completes afterStatement 49, awaits [(.semicolon, 184)],
    completes afterStatement 51, awaitsAfter .semicolon 185, completes afterStatement 53,
    completes afterExpression 77, completes afterAssignment 81,
    ⟨assigning, [(inner afterUnary, 141)], [(.assignmentOperator, 187), (.updateOperator, 188)]⟩,
    ⟨[(.question, 189)], [(afterAssignment, 97)], []⟩, completes (inner afterTarget) 147,
    ⟨accessing 191 192, [(inner afterTarget, 148)], [(.arguments, 190)]⟩,
    ⟨operating, [(inner afterChain, 102)], [(.binaryOperator, 139), (.operations, 193)]⟩,
    ⟨accessing 194 195, [(inner afterTarget, 151)], [(.arguments, 196)]⟩,
    ⟨calleeStart, [], toConstruction 197 198⟩, completes (inner afterUnary) 128,
    ⟨operandStart, [], toUnary 199⟩, completes (inner afterMember) 155,
    completes (inner afterMember) 156, completes (inner afterMember) 176,
    completes (inner afterMember) 177, awaits [(.name, 200), (.lparen, 201)],
    completes (inner afterMember) 179,
    ⟨keyOrBrace 203, [], [(.property, 202), (.propertyKey, 204)]⟩, awaitsExpression 208,
    awaitsExpression 209, awaitsStatement 210, awaitsAfter .semicolon 211,
    ⟨[(.kwCatch, 214), (.kwFinally, 215)], [], [(.catchClause, 212), (.finallyClause, 213)]⟩,
    completes afterStatement 68, awaits [(.lparen, 216)],
    ⟨[(.comma, 218)], [([.semicolon], 26)], [(.moreDeclarations, 217)]⟩,
    ⟨[(.equal, 219)], [([.comma, .semicolon], 28)], []⟩, awaitsAssignment 220,
    completes afterUnary 144, completes afterOperator 85]

def rows2 : List Row :=
  completesEach afterOperator 86 11 ++
  [completes (inner afterUnary) 145, completes (inner afterUnary) 146, awaitsAssignment 221,
    completes afterMember 169, ⟨[(.name, 223)], [], [(.propertyName, 222)]⟩,
    awaitsExpression 224, ⟨operandOr .rparen 226, [], toAssignment 225⟩,
    ⟨operating, [(afterChain, 103)], [(.binaryOperator, 227)]⟩, ⟨operandStart, [], toUnary 228⟩] ++
  completesEach afterOperator 105 23 ++
  [⟨[(.name, 223)], [], [(.propertyName, 229)]⟩, awaitsExpression 230,
    completes afterMember 168, completes afterTarget 154,
    ⟨accessing 194 195, [(afterTarget, 151)], [(.arguments, 231)]⟩, completes afterUnary 131,
    ⟨[(.plusPlus, 131), (.minusMinus, 132)], [(inner afterUnary, 141)], [(.updateOperator, 188)]⟩,
    awaitsAfter .rparen 232, ⟨[(.comma, 235), (.rbracket, 234)], [], [(.moreElements, 233)]⟩,
    completes [.comma, .rbracket] 190, completes afterBlock 22,
    completes [.comma, .semicolon] 80, awaitsAfter .rparen 236, awaits [(.lparen, 237)],
    awaitsAfter .rparen 238, awaits [(.semicolon, 239)], awaitsMaybe .semicolon 240 241]

def rows3 : List Row :=
  [⟨[(.comma, 186), (.rparen, 242)], [([.semicolon], 45)], []⟩,
    ⟨[(.name, 243)], [], [(.declaration, 115)]⟩, completes [.semicolon] 44,
    completes afterStatement 48, completes afterStatement 50, completes afterStatement 52,
    awaitsAssignment 244, awaitsAssignment 245, completes (inner afterUnary) 142,
    awaitsAssignment 246, completes (inner afterMember) 165,
    ⟨[(.name, 223)], [], [(.propertyName, 247)]⟩, awaitsExpression 248,
    ⟨operating, [(inner afterChain, 101)], [(.binaryOperator, 227)]⟩,
    ⟨[(.name, 223)], [], [(.propertyName, 249)]⟩, awaitsExpression 250,
    completes (inner afterMember) 164, completes (inner afterTarget) 152,
    ⟨accessing 194 195, [(inner afterTarget, 151)], [(.arguments, 251)]⟩,
    completes (inner afterUnary) 129, awaits [(.lparen, 252)],
    ⟨[(.name, 254)], [([.rparen], 74)], [(.parameters, 253)]⟩,
    ⟨[(.comma, 256), (.rbrace, 257)], [], [(.moreProperties, 255)]⟩,
    completes (inner afterMember) 196, awaits [(.colon, 258)],
    ⟨[(.string, 206), (.number, 207), (.name, 260)], [([.colon], 199)],
      [(.propertyKey, 259)]⟩, completes [.colon, .lparen] 200,
    completes [.colon, .lparen] 201, awaitsAfter .rparen 261, awaitsAfter .rparen 262,
    completes afterStatement 61, completes afterStatement 62,
    ⟨[(.kwFinally, 215)], [(afterStatement, 64)], [(.finallyClause, 263)]⟩,
    completes afterStatement 65, awaits [(.lparen, 264)], ⟨[(.lbrace, 24)], [], [(.block, 265)]⟩,
    ⟨[(.name, 254)], [([.rparen], 74)], [(.parameters, 266)]⟩,
    ⟨[(.comma, 267)], [([.semicolon], 25)], []⟩, ⟨[(.name, 116)], [], [(.declaration, 268)]⟩,
    awaitsAssignment 269, completes [.comma, .semicolon] 84, awaits [(.colon, 270)],
    completes afterMember 170, completes (inner afterMember) 175, awaitsAfter .rbracket 271,
    ⟨[(.comma, 274), (.rparen, 273)], [], [(.moreArguments, 272)]⟩,
    completes (inner afterMember) 174, ⟨operandStart, [], toUnary 275⟩,
    completes (inner afterUnary) 212, completes afterMember 161, awaitsAfter .rbracket 276,
    completes afterMember 163, completes (inner afterMember) 187,
    awaits [(.comma, 278), (.rbracket, 277)], completes (inner afterMember) 189,
    ⟨operandStart, [([.comma, .rbracket], 191)], toElement 279⟩, awaitsStatement 280,
    awaitsExpression 281, awaitsStatement 282, awaitsMaybe .semicolon 283 284]

def rows4 : List Row :=
  [awaitsAfter .semicolon 285, awaitsMaybe .rparen 286 287, awaitsStatement 288,
    ⟨[(.kwIn, 289), (.equal, 219)], [([.comma, .semicolon], 28)], []⟩,
    completes afterExpression 78, completes afterAssignment 82, awaits [(.colon, 290)],
    completes (inner afterMember) 166, awaitsAfter .rbracket 291,
    completes (inner afterMember) 157, awaitsAfter .rbracket 292,
    completes (inner afterMember) 159, ⟨[(.name, 254)], [([.rparen], 74)], [(.parameters, 293)]⟩,
    awaits [(.rparen, 294)], ⟨[(.comma, 296)], [([.rparen], 73)], [(.moreParameters, 295)]⟩,
    awaits [(.comma, 297), (.rbrace, 298)],
    ⟨keyOrBrace 299, [], [(.property, 300), (.propertyKey, 204)]⟩,
    completes (inner afterMember) 195, awaitsAssignment 301, awaits [(.lparen, 302)],
    completes [.lparen] 199, awaitsStatement 303, awaits [(.lbrace, 304)],
    completes afterStatement 63, awaits [(.name, 305)], completes afterStatement 67,
    awaits [(.rparen, 306)], ⟨[(.name, 116)], [], [(.declaration, 307)]⟩,
    completes [.comma, .semicolon] 204, completes [.comma, .semicolon] 27, awaitsAssignment 308,
    completes afterMember 171, awaits [(.comma, 310), (.rparen, 309)],
    completes (inner afterMember) 173, awaitsAssignment 311, completes (inner afterUnary) 213,
    completes afterMember 162, completes (inner afterMember) 188,
    ⟨operandStart, [([.comma, .rbracket], 191)], toElement 312⟩,
    completes [.comma, .rbracket] 216, ⟨[(.kwElse, 313)], [(afterStatements, 32)], []⟩,
    awaitsAfter .rparen 314, completes afterStatement 35, awaitsAfter .semicolon 315,
    awaitsMaybe .rparen 316 317, awaitsMaybe .rparen 318 319, awaitsAfter .rparen 320,
    awaitsStatement 321, completes afterStatement 46, awaitsExpression 322, awaitsAssignment 323,
    completes (inner afterMember) 167, completes (inner afterMember) 158,
    awaits [(.rparen, 324)], ⟨[(.lbrace, 326)], [], [(.functionBody, 325)]⟩,
    ⟨[(.comma, 327)], [([.rparen], 72)], []⟩, awaits [(.name, 328)],
    ⟨keyOrBrace 329, [], [(.property, 330), (.propertyKey, 204)]⟩,
    completes (inner afterMember) 193, completes (inner afterMember) 194]

def rows5 : List Row :=
  [completes [.comma, .rbrace] 218, completes [.comma, .rbrace] 197,
    ⟨[(.name, 254)], [([.rparen], 74)], [(.parameters, 331)]⟩, completes afterStatement 54,
    ⟨[(.kwCase, 336), (.kwDefault, 337), (.rbrace, 333)], [],
      [(.caseClause, 334), (.defaultClause, 335), (.clauses, 332)]⟩, awaits [(.rparen, 338)],
    ⟨[(.lbrace, 326)], [], [(.functionBody, 339)]⟩, completes [.comma, .semicolon] 205,
    completes [.comma, .semicolon] 100, completes (inner afterMember) 172, awaitsAssignment 340,
    completes [.comma, .rparen] 214, completes [.comma, .rbracket] 217, awaitsStatement 341,
    ⟨[(.semicolon, 342)], [(afterLoop, 34)], []⟩, awaitsMaybe .rparen 343 344,
    awaitsAfter .rparen 345, awaitsStatement 346, awaitsAfter .rparen 347, awaitsStatement 348,
    awaitsStatement 349, completes afterStatement 43, awaitsAfter .rparen 350,
    completes afterAssignment 98, ⟨[(.lbrace, 326)], [], [(.functionBody, 351)]⟩,
    completes (inner afterMember) 71, ⟨statementOrBrace 353, [], toStatements 352⟩,
    awaits [(.name, 354)], completes [.comma, .rparen] 210, completes (inner afterMember) 192,
    completes [.comma, .rbrace] 219, awaits [(.rparen, 355)],
    ⟨[(.kwCase, 336), (.kwDefault, 337), (.rbrace, 356)], [],
      [(.caseClause, 357), (.defaultClause, 358)]⟩, completes afterStatement 56,
    completes afterBranch 206, completes afterBranch 207, awaitsExpression 359,
    awaits [(.colon, 360)], ⟨[(.lbrace, 24)], [], [(.block, 361)]⟩, completes afterStatement 69,
    completes [.comma, .rparen] 215, completes afterStatement 31, completes afterStatement 33,
    awaitsAfter .rparen 362, awaitsStatement 363, awaitsStatement 364,
    completes afterStatement 39, awaitsStatement 365, completes afterStatement 41,
    completes afterStatement 42, awaitsStatement 366, completes (inner afterMember) 70,
    ⟨statementOrBrace 367, [], toStatement 74⟩, completes afterFunction 76,
    completes [.comma, .rparen] 211, ⟨[(.lbrace, 326)], [], [(.functionBody, 368)]⟩,
    completes afterStatement 55, completes afterBranch 208, completes afterBranch 209,
    awaits [(.colon, 369), (.comma, 186)]]

def rows6 : List Row :=
  [⟨statementStart, [(afterBranch, 60)], toStatements 370⟩, completes afterHandler 66,
    awaitsStatement 371, completes afterStatement 37, completes afterStatement 38,
    completes afterStatement 40, completes afterStatement 47, completes afterFunction 75,
    completes [.comma, .rbrace] 198, ⟨statementStart, [(afterBranch, 58)], toStatements 372⟩,
    ⟨statementStart, [(afterBranch, 59)], toStatement 74⟩, completes afterStatement 36,
    ⟨statementStart, [(afterBranch, 57)], toStatement 74⟩]

def rows : Array Row :=
  (rows0 ++ rows1 ++ rows2 ++ rows3 ++ rows4 ++ rows5 ++ rows6).toArray

/-- The state in which the whole program has been read. -/
def acceptState : Nat := 1

end Debundle.Automaton
