import Debundle.Grammar.Terminal

/-!
# The grammar of programs

A context free grammar. Names that end in `Lead` derive expressions that may begin a statement:
they start neither with a brace nor with `function`. Operators stand in flat chains; precedence
is put in when the tree is built.
-/
namespace Debundle

inductive Nonterminal where
  | program | statement | block | varStatement | declarations | declaration | emptyStatement
  | expressionStatement | ifStatement | doStatement | whileStatement | forStatement | forInit
  | forInStatement | forInVarStatement | continueStatement | breakStatement | returnStatement
  | withStatement | switchStatement | caseClause | defaultClause | labeledStatement
  | throwStatement | tryStatement | catchClause | finallyClause | debuggerStatement
  | functionDeclaration | functionExpression | parameters | functionBody | expression
  | expressionLead | assignment | assignmentLead | assignmentOperator | conditional
  | conditionalLead | binary | binaryLead | binaryOperator | unary | unaryLead | unaryOperator
  | update | updateLead | updateOperator | target | targetLead | construction | constructionLead
  | member | memberLead | call | callLead | arguments | propertyName | primary | primaryLead
  | array | element | object | property | propertyKey | statements | moreDeclarations | clauses
  | moreParameters | operations | moreArguments | moreElements | moreProperties
  deriving DecidableEq

inductive GrammarSymbol where
  | terminal (t : Terminal)
  | nonterminal (n : Nonterminal)
  deriving DecidableEq

/-- What a rule contributes to the program tree. -/
inductive Label where
  | program | pass | block | first | declare | define | empty | simple | choose | doWhile
  | whileLoop | forLoop | forIn | forInDeclared | continueLoop | breakLoop | returnValue
  | withObject | switch | caseBranch | defaultBranch | labeled | throwValue | tryBlock | handler
  | finalizer | debugger | declareFunction | function | parameters | gather | sequence | assign
  | word | conditional | binary | unary | update | constructBare | dot | index | construct
  | call | self | reference | number | string | regexp | null | yes | no | parens | array
  | element | object | keyValue | accessor
  deriving DecidableEq

structure Rule where
  head : Nonterminal
  body : List GrammarSymbol
  label : Label
  deriving DecidableEq

namespace Rule

def t (x : Terminal) : GrammarSymbol := .terminal x

def n (x : Nonterminal) : GrammarSymbol := .nonterminal x

/-- Statements. -/
def statementRules : List Rule :=
  [⟨.program, [n .statements], .program⟩,
   ⟨.program, [], .program⟩,
   ⟨.statement, [n .block], .pass⟩,
   ⟨.statement, [n .varStatement], .pass⟩,
   ⟨.statement, [n .emptyStatement], .pass⟩,
   ⟨.statement, [n .expressionStatement], .pass⟩,
   ⟨.statement, [n .ifStatement], .pass⟩,
   ⟨.statement, [n .doStatement], .pass⟩,
   ⟨.statement, [n .whileStatement], .pass⟩,
   ⟨.statement, [n .forStatement], .pass⟩,
   ⟨.statement, [n .forInStatement], .pass⟩,
   ⟨.statement, [n .forInVarStatement], .pass⟩,
   ⟨.statement, [n .continueStatement], .pass⟩,
   ⟨.statement, [n .breakStatement], .pass⟩,
   ⟨.statement, [n .returnStatement], .pass⟩,
   ⟨.statement, [n .withStatement], .pass⟩,
   ⟨.statement, [n .switchStatement], .pass⟩,
   ⟨.statement, [n .labeledStatement], .pass⟩,
   ⟨.statement, [n .throwStatement], .pass⟩,
   ⟨.statement, [n .tryStatement], .pass⟩,
   ⟨.statement, [n .debuggerStatement], .pass⟩,
   ⟨.statement, [n .functionDeclaration], .pass⟩]

/-- Blocks, declarations and simple statements. -/
def plainRules : List Rule :=
  [⟨.block, [t .lbrace, n .statements, t .rbrace], .block⟩,
   ⟨.block, [t .lbrace, t .rbrace], .block⟩,
   ⟨.varStatement, [n .declarations, t .semicolon], .first⟩,
   ⟨.declarations, [t .kwVar, n .declaration, n .moreDeclarations], .declare⟩,
   ⟨.declarations, [t .kwVar, n .declaration], .declare⟩,
   ⟨.declaration, [t .name, t .equal, n .assignment], .define⟩,
   ⟨.declaration, [t .name], .define⟩,
   ⟨.emptyStatement, [t .semicolon], .empty⟩,
   ⟨.expressionStatement, [n .expressionLead, t .semicolon], .simple⟩]

/-- Choices and loops. -/
def controlRules : List Rule :=
  [⟨.ifStatement,
      [t .kwIf, t .lparen, n .expression, t .rparen, n .statement, t .kwElse, n .statement],
      .choose⟩,
   ⟨.ifStatement, [t .kwIf, t .lparen, n .expression, t .rparen, n .statement], .choose⟩,
   ⟨.doStatement,
      [t .kwDo, n .statement, t .kwWhile, t .lparen, n .expression, t .rparen, t .semicolon],
      .doWhile⟩,
   ⟨.doStatement,
      [t .kwDo, n .statement, t .kwWhile, t .lparen, n .expression, t .rparen],
      .doWhile⟩,
   ⟨.whileStatement, [t .kwWhile, t .lparen, n .expression, t .rparen, n .statement], .whileLoop⟩,
   ⟨.forStatement,
      [t .kwFor, t .lparen, n .forInit, t .semicolon, n .expression, t .semicolon, n .expression,
       t .rparen, n .statement],
      .forLoop⟩,
   ⟨.forStatement,
      [t .kwFor, t .lparen, n .forInit, t .semicolon, n .expression, t .semicolon, t .rparen,
       n .statement],
      .forLoop⟩,
   ⟨.forStatement,
      [t .kwFor, t .lparen, n .forInit, t .semicolon, t .semicolon, n .expression, t .rparen,
       n .statement],
      .forLoop⟩,
   ⟨.forStatement,
      [t .kwFor, t .lparen, n .forInit, t .semicolon, t .semicolon, t .rparen, n .statement],
      .forLoop⟩,
   ⟨.forStatement,
      [t .kwFor, t .lparen, t .semicolon, n .expression, t .semicolon, n .expression, t .rparen,
       n .statement],
      .forLoop⟩,
   ⟨.forStatement,
      [t .kwFor, t .lparen, t .semicolon, n .expression, t .semicolon, t .rparen, n .statement],
      .forLoop⟩,
   ⟨.forStatement,
      [t .kwFor, t .lparen, t .semicolon, t .semicolon, n .expression, t .rparen, n .statement],
      .forLoop⟩,
   ⟨.forStatement,
      [t .kwFor, t .lparen, t .semicolon, t .semicolon, t .rparen, n .statement],
      .forLoop⟩,
   ⟨.forInit, [n .declarations], .pass⟩,
   ⟨.forInit, [n .expression], .pass⟩,
   ⟨.forInStatement, [t .kwFor, t .lparen, n .expression, t .rparen, n .statement], .forIn⟩,
   ⟨.forInVarStatement,
      [t .kwFor, t .lparen, t .kwVar, t .name, t .kwIn, n .expression, t .rparen, n .statement],
      .forInDeclared⟩]

/-- Jumps, and statements with clauses. -/
def clauseRules : List Rule :=
  [⟨.continueStatement, [t .kwContinue, t .name, t .semicolon], .continueLoop⟩,
   ⟨.continueStatement, [t .kwContinue, t .semicolon], .continueLoop⟩,
   ⟨.breakStatement, [t .kwBreak, t .name, t .semicolon], .breakLoop⟩,
   ⟨.breakStatement, [t .kwBreak, t .semicolon], .breakLoop⟩,
   ⟨.returnStatement, [t .kwReturn, n .expression, t .semicolon], .returnValue⟩,
   ⟨.returnStatement, [t .kwReturn, t .semicolon], .returnValue⟩,
   ⟨.withStatement, [t .kwWith, t .lparen, n .expression, t .rparen, n .statement], .withObject⟩,
   ⟨.switchStatement,
      [t .kwSwitch, t .lparen, n .expression, t .rparen, t .lbrace, n .clauses, t .rbrace],
      .switch⟩,
   ⟨.switchStatement,
      [t .kwSwitch, t .lparen, n .expression, t .rparen, t .lbrace, t .rbrace],
      .switch⟩,
   ⟨.caseClause, [t .kwCase, n .expression, t .colon, n .statements], .caseBranch⟩,
   ⟨.caseClause, [t .kwCase, n .expression, t .colon], .caseBranch⟩,
   ⟨.defaultClause, [t .kwDefault, t .colon, n .statements], .defaultBranch⟩,
   ⟨.defaultClause, [t .kwDefault, t .colon], .defaultBranch⟩,
   ⟨.labeledStatement, [t .name, t .colon, n .statement], .labeled⟩,
   ⟨.throwStatement, [t .kwThrow, n .expression, t .semicolon], .throwValue⟩,
   ⟨.tryStatement, [t .kwTry, n .block, n .catchClause, n .finallyClause], .tryBlock⟩,
   ⟨.tryStatement, [t .kwTry, n .block, n .catchClause], .tryBlock⟩,
   ⟨.tryStatement, [t .kwTry, n .block, n .finallyClause], .tryBlock⟩,
   ⟨.catchClause, [t .kwCatch, t .lparen, t .name, t .rparen, n .block], .handler⟩,
   ⟨.finallyClause, [t .kwFinally, n .block], .finalizer⟩,
   ⟨.debuggerStatement, [t .kwDebugger, t .semicolon], .debugger⟩]

/-- Functions. -/
def functionRules : List Rule :=
  [⟨.functionDeclaration,
      [t .kwFunction, t .name, t .lparen, n .parameters, t .rparen, n .functionBody],
      .declareFunction⟩,
   ⟨.functionExpression,
      [t .kwFunction, t .name, t .lparen, n .parameters, t .rparen, n .functionBody],
      .function⟩,
   ⟨.functionExpression,
      [t .kwFunction, t .lparen, n .parameters, t .rparen, n .functionBody],
      .function⟩,
   ⟨.parameters, [t .name, n .moreParameters], .parameters⟩,
   ⟨.parameters, [t .name], .parameters⟩,
   ⟨.parameters, [], .parameters⟩,
   ⟨.functionBody, [t .lbrace, n .statements, t .rbrace], .gather⟩,
   ⟨.functionBody, [t .lbrace, t .rbrace], .gather⟩]

/-- Expressions with operators. -/
def operatorRules : List Rule :=
  [⟨.expression, [n .assignment], .pass⟩,
   ⟨.expression, [n .expression, t .comma, n .assignment], .sequence⟩,
   ⟨.expressionLead, [n .assignmentLead], .pass⟩,
   ⟨.expressionLead, [n .expressionLead, t .comma, n .assignment], .sequence⟩,
   ⟨.assignment, [n .conditional], .pass⟩,
   ⟨.assignment, [n .target, n .assignmentOperator, n .assignment], .assign⟩,
   ⟨.assignmentLead, [n .conditionalLead], .pass⟩,
   ⟨.assignmentLead, [n .targetLead, n .assignmentOperator, n .assignment], .assign⟩,
   ⟨.assignmentOperator, [t .equal], .word⟩,
   ⟨.assignmentOperator, [t .plusEqual], .word⟩,
   ⟨.assignmentOperator, [t .minusEqual], .word⟩,
   ⟨.assignmentOperator, [t .starEqual], .word⟩,
   ⟨.assignmentOperator, [t .slashEqual], .word⟩,
   ⟨.assignmentOperator, [t .percentEqual], .word⟩,
   ⟨.assignmentOperator, [t .shlEqual], .word⟩,
   ⟨.assignmentOperator, [t .shrEqual], .word⟩,
   ⟨.assignmentOperator, [t .ushrEqual], .word⟩,
   ⟨.assignmentOperator, [t .ampEqual], .word⟩,
   ⟨.assignmentOperator, [t .caretEqual], .word⟩,
   ⟨.assignmentOperator, [t .barEqual], .word⟩,
   ⟨.conditional, [n .binary], .pass⟩,
   ⟨.conditional, [n .binary, t .question, n .assignment, t .colon, n .assignment], .conditional⟩,
   ⟨.conditionalLead, [n .binaryLead], .pass⟩,
   ⟨.conditionalLead,
      [n .binaryLead, t .question, n .assignment, t .colon, n .assignment],
      .conditional⟩,
   ⟨.binary, [n .unary, n .operations], .binary⟩,
   ⟨.binary, [n .unary], .pass⟩,
   ⟨.binaryLead, [n .unaryLead, n .operations], .binary⟩,
   ⟨.binaryLead, [n .unaryLead], .binary⟩,
   ⟨.binaryOperator, [t .barBar], .word⟩,
   ⟨.binaryOperator, [t .ampAmp], .word⟩,
   ⟨.binaryOperator, [t .bar], .word⟩,
   ⟨.binaryOperator, [t .caret], .word⟩,
   ⟨.binaryOperator, [t .amp], .word⟩,
   ⟨.binaryOperator, [t .equalEqual], .word⟩,
   ⟨.binaryOperator, [t .bangEqual], .word⟩,
   ⟨.binaryOperator, [t .equalEqualEqual], .word⟩,
   ⟨.binaryOperator, [t .bangEqualEqual], .word⟩,
   ⟨.binaryOperator, [t .less], .word⟩,
   ⟨.binaryOperator, [t .greater], .word⟩,
   ⟨.binaryOperator, [t .lessEqual], .word⟩,
   ⟨.binaryOperator, [t .greaterEqual], .word⟩,
   ⟨.binaryOperator, [t .kwInstanceof], .word⟩,
   ⟨.binaryOperator, [t .kwIn], .word⟩,
   ⟨.binaryOperator, [t .shl], .word⟩,
   ⟨.binaryOperator, [t .shr], .word⟩,
   ⟨.binaryOperator, [t .ushr], .word⟩,
   ⟨.binaryOperator, [t .plus], .word⟩,
   ⟨.binaryOperator, [t .minus], .word⟩,
   ⟨.binaryOperator, [t .star], .word⟩,
   ⟨.binaryOperator, [t .slash], .word⟩,
   ⟨.binaryOperator, [t .percent], .word⟩,
   ⟨.unary, [n .update], .pass⟩,
   ⟨.unary, [n .unaryOperator, n .unary], .unary⟩,
   ⟨.unaryLead, [n .updateLead], .pass⟩,
   ⟨.unaryLead, [n .unaryOperator, n .unary], .unary⟩,
   ⟨.unaryOperator, [t .kwDelete], .word⟩,
   ⟨.unaryOperator, [t .kwVoid], .word⟩,
   ⟨.unaryOperator, [t .kwTypeof], .word⟩,
   ⟨.unaryOperator, [t .plusPlus], .word⟩,
   ⟨.unaryOperator, [t .minusMinus], .word⟩,
   ⟨.unaryOperator, [t .plus], .word⟩,
   ⟨.unaryOperator, [t .minus], .word⟩,
   ⟨.unaryOperator, [t .tilde], .word⟩,
   ⟨.unaryOperator, [t .bang], .word⟩,
   ⟨.update, [n .target], .pass⟩,
   ⟨.update, [n .target, n .updateOperator], .update⟩,
   ⟨.updateLead, [n .targetLead], .pass⟩,
   ⟨.updateLead, [n .targetLead, n .updateOperator], .update⟩,
   ⟨.updateOperator, [t .plusPlus], .word⟩,
   ⟨.updateOperator, [t .minusMinus], .word⟩]

/-- Access to properties, and calls. -/
def accessRules : List Rule :=
  [⟨.target, [n .construction], .pass⟩,
   ⟨.target, [n .call], .pass⟩,
   ⟨.targetLead, [n .constructionLead], .pass⟩,
   ⟨.targetLead, [n .callLead], .pass⟩,
   ⟨.construction, [n .member], .pass⟩,
   ⟨.construction, [t .kwNew, n .construction], .constructBare⟩,
   ⟨.constructionLead, [n .memberLead], .pass⟩,
   ⟨.constructionLead, [t .kwNew, n .construction], .constructBare⟩,
   ⟨.member, [n .primary], .pass⟩,
   ⟨.member, [n .functionExpression], .pass⟩,
   ⟨.member, [n .member, t .dot, n .propertyName], .dot⟩,
   ⟨.member, [n .member, t .lbracket, n .expression, t .rbracket], .index⟩,
   ⟨.member, [t .kwNew, n .member, n .arguments], .construct⟩,
   ⟨.memberLead, [n .primaryLead], .pass⟩,
   ⟨.memberLead, [n .memberLead, t .dot, n .propertyName], .dot⟩,
   ⟨.memberLead, [n .memberLead, t .lbracket, n .expression, t .rbracket], .index⟩,
   ⟨.memberLead, [t .kwNew, n .member, n .arguments], .construct⟩,
   ⟨.call, [n .member, n .arguments], .call⟩,
   ⟨.call, [n .call, n .arguments], .call⟩,
   ⟨.call, [n .call, t .dot, n .propertyName], .dot⟩,
   ⟨.call, [n .call, t .lbracket, n .expression, t .rbracket], .index⟩,
   ⟨.callLead, [n .memberLead, n .arguments], .call⟩,
   ⟨.callLead, [n .callLead, n .arguments], .call⟩,
   ⟨.callLead, [n .callLead, t .dot, n .propertyName], .dot⟩,
   ⟨.callLead, [n .callLead, t .lbracket, n .expression, t .rbracket], .index⟩,
   ⟨.arguments, [t .lparen, n .assignment, n .moreArguments, t .rparen], .gather⟩,
   ⟨.arguments, [t .lparen, n .assignment, t .rparen], .gather⟩,
   ⟨.arguments, [t .lparen, t .rparen], .gather⟩,
   ⟨.propertyName, [t .name], .word⟩]

/-- Primary expressions. -/
def primaryRules : List Rule :=
  [⟨.primary, [n .primaryLead], .pass⟩,
   ⟨.primary, [n .object], .pass⟩,
   ⟨.primaryLead, [t .kwThis], .self⟩,
   ⟨.primaryLead, [t .name], .reference⟩,
   ⟨.primaryLead, [t .number], .number⟩,
   ⟨.primaryLead, [t .string], .string⟩,
   ⟨.primaryLead, [t .regex], .regexp⟩,
   ⟨.primaryLead, [t .kwNull], .null⟩,
   ⟨.primaryLead, [t .kwTrue], .yes⟩,
   ⟨.primaryLead, [t .kwFalse], .no⟩,
   ⟨.primaryLead, [n .array], .pass⟩,
   ⟨.primaryLead, [t .lparen, n .expression, t .rparen], .parens⟩,
   ⟨.array, [t .lbracket, n .element, n .moreElements, t .rbracket], .array⟩,
   ⟨.array, [t .lbracket, n .element, t .rbracket], .array⟩,
   ⟨.element, [n .assignment], .element⟩,
   ⟨.element, [], .element⟩,
   ⟨.object, [t .lbrace, n .property, n .moreProperties, t .comma, t .rbrace], .object⟩,
   ⟨.object, [t .lbrace, n .property, n .moreProperties, t .rbrace], .object⟩,
   ⟨.object, [t .lbrace, n .property, t .comma, t .rbrace], .object⟩,
   ⟨.object, [t .lbrace, n .property, t .rbrace], .object⟩,
   ⟨.object, [t .lbrace, t .rbrace], .object⟩,
   ⟨.property, [n .propertyKey, t .colon, n .assignment], .keyValue⟩,
   ⟨.property,
      [t .name, n .propertyKey, t .lparen, n .parameters, t .rparen, n .functionBody],
      .accessor⟩,
   ⟨.propertyKey, [t .name], .pass⟩,
   ⟨.propertyKey, [t .string], .pass⟩,
   ⟨.propertyKey, [t .number], .pass⟩]

/-- Lists, which grow at their end. -/
def listRules : List Rule :=
  [⟨.statements, [n .statement], .gather⟩,
   ⟨.statements, [n .statements, n .statement], .gather⟩,
   ⟨.moreDeclarations, [t .comma, n .declaration], .gather⟩,
   ⟨.moreDeclarations, [n .moreDeclarations, t .comma, n .declaration], .gather⟩,
   ⟨.clauses, [n .caseClause], .gather⟩,
   ⟨.clauses, [n .defaultClause], .gather⟩,
   ⟨.clauses, [n .clauses, n .caseClause], .gather⟩,
   ⟨.clauses, [n .clauses, n .defaultClause], .gather⟩,
   ⟨.moreParameters, [t .comma, t .name], .gather⟩,
   ⟨.moreParameters, [n .moreParameters, t .comma, t .name], .gather⟩,
   ⟨.operations, [n .binaryOperator, n .unary], .gather⟩,
   ⟨.operations, [n .operations, n .binaryOperator, n .unary], .gather⟩,
   ⟨.moreArguments, [t .comma, n .assignment], .gather⟩,
   ⟨.moreArguments, [n .moreArguments, t .comma, n .assignment], .gather⟩,
   ⟨.moreElements, [t .comma, n .element], .gather⟩,
   ⟨.moreElements, [n .moreElements, t .comma, n .element], .gather⟩,
   ⟨.moreProperties, [t .comma, n .property], .gather⟩,
   ⟨.moreProperties, [n .moreProperties, t .comma, n .property], .gather⟩]

/-- All rules; a derivation refers to them by position. -/
def all : Array Rule :=
  (statementRules ++ plainRules ++ controlRules ++ clauseRules ++ functionRules ++ operatorRules ++
    accessRules ++ primaryRules ++ listRules).toArray

end Rule

end Debundle
