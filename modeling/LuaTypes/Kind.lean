/-!
# Kinds of tree elements

The kinds of tokens and inner nodes of a Lua tree, as far as type inference looks at them.

* `Kind.tag` and `Kind.code` spell and number the kinds; `ofTag?_tag` and `ofCode?_code` read
  them back;
* `Kind.spelling?` is the source text of a keyword, operator or punctuation mark;
* `Kind.joinsOperands` and `Kind.precedesOperand` say which tokens join or precede operands.
-/

namespace LuaTypes

/-- Every kind of element of a Lua tree: tokens first, then inner nodes. -/
inductive Kind where
  -- no element of a finished tree
  | tombstone | errorNode
  -- blanks and comments
  | whitespace | comment
  -- keywords
  | andKw | endKw | falseKw | functionKw | localKw | nilKw | notKw | orKw | returnKw | trueKw
  -- arithmetic operators
  | plus | minus | star | slash | doubleSlash | percent | caret
  -- bitwise operators
  | amp | pipe | tilde | shl | shr
  -- other operators
  | concat | hash | eqEq | notEq | lt | ltEq | gt | gtEq | eq
  -- punctuation
  | lParen | rParen | lBracket | rBracket | lBrace | rBrace | dot | colon | comma | semicolon
  | ellipsis
  -- literals and identifiers
  | number | string | ident
  -- inner nodes
  | sourceFile | block | localStmt | localFuncStmt | funcStmt | returnStmt | callStmt | name
  | nameList | exprList | paramList | funcBody | argList | literal | nameExpr | parenExpr
  | unaryExpr | binaryExpr | callExpr | indexExpr | closureExpr | tableExpr
  deriving DecidableEq, Repr, Inhabited

namespace Kind

/-- The tag of a kind in listings and references. -/
def tag : Kind → String
  | .tombstone => "TOMBSTONE"
  | .errorNode => "ERROR_NODE"
  | .whitespace => "WHITESPACE"
  | .comment => "COMMENT"
  | .andKw => "AND_KW"
  | .endKw => "END_KW"
  | .falseKw => "FALSE_KW"
  | .functionKw => "FUNCTION_KW"
  | .localKw => "LOCAL_KW"
  | .nilKw => "NIL_KW"
  | .notKw => "NOT_KW"
  | .orKw => "OR_KW"
  | .returnKw => "RETURN_KW"
  | .trueKw => "TRUE_KW"
  | .plus => "PLUS"
  | .minus => "MINUS"
  | .star => "STAR"
  | .slash => "SLASH"
  | .doubleSlash => "DOUBLE_SLASH"
  | .percent => "PERCENT"
  | .caret => "CARET"
  | .amp => "AMP"
  | .pipe => "PIPE"
  | .tilde => "TILDE"
  | .shl => "SHL"
  | .shr => "SHR"
  | .concat => "CONCAT"
  | .hash => "HASH"
  | .eqEq => "EQ_EQ"
  | .notEq => "NOT_EQ"
  | .lt => "LT"
  | .ltEq => "LT_EQ"
  | .gt => "GT"
  | .gtEq => "GT_EQ"
  | .eq => "EQ"
  | .lParen => "L_PAREN"
  | .rParen => "R_PAREN"
  | .lBracket => "L_BRACKET"
  | .rBracket => "R_BRACKET"
  | .lBrace => "L_BRACE"
  | .rBrace => "R_BRACE"
  | .dot => "DOT"
  | .colon => "COLON"
  | .comma => "COMMA"
  | .semicolon => "SEMICOLON"
  | .ellipsis => "ELLIPSIS"
  | .number => "NUMBER"
  | .string => "STRING"
  | .ident => "IDENT"
  | .sourceFile => "SOURCE_FILE"
  | .block => "BLOCK"
  | .localStmt => "LOCAL_STMT"
  | .localFuncStmt => "LOCAL_FUNC_STMT"
  | .funcStmt => "FUNC_STMT"
  | .returnStmt => "RETURN_STMT"
  | .callStmt => "CALL_STMT"
  | .name => "NAME"
  | .nameList => "NAME_LIST"
  | .exprList => "EXPR_LIST"
  | .paramList => "PARAM_LIST"
  | .funcBody => "FUNC_BODY"
  | .argList => "ARG_LIST"
  | .literal => "LITERAL"
  | .nameExpr => "NAME_EXPR"
  | .parenExpr => "PAREN_EXPR"
  | .unaryExpr => "UNARY_EXPR"
  | .binaryExpr => "BINARY_EXPR"
  | .callExpr => "CALL_EXPR"
  | .indexExpr => "INDEX_EXPR"
  | .closureExpr => "CLOSURE_EXPR"
  | .tableExpr => "TABLE_EXPR"

/-- All kinds, in the order of their codes. -/
def all : List Kind :=
  [.tombstone, .errorNode, .whitespace, .comment, .andKw, .endKw, .falseKw, .functionKw, .localKw,
   .nilKw, .notKw, .orKw, .returnKw, .trueKw, .plus, .minus, .star, .slash, .doubleSlash,
   .percent, .caret, .amp, .pipe, .tilde, .shl, .shr, .concat, .hash, .eqEq, .notEq, .lt, .ltEq,
   .gt, .gtEq, .eq, .lParen, .rParen, .lBracket, .rBracket, .lBrace, .rBrace, .dot, .colon,
   .comma, .semicolon, .ellipsis, .number, .string, .ident, .sourceFile, .block, .localStmt,
   .localFuncStmt, .funcStmt, .returnStmt, .callStmt, .name, .nameList, .exprList, .paramList,
   .funcBody, .argList, .literal, .nameExpr, .parenExpr, .unaryExpr, .binaryExpr, .callExpr,
   .indexExpr, .closureExpr, .tableExpr]

/-- The position of a kind in the numbering that all trees share. -/
def code (kind : Kind) : Nat := kind.ctorIdx

/-- The kind with this code; codes past the last kind belong to no kind. -/
def ofCode? (code : Nat) : Option Kind := all[code]?

/-- The kind with this tag. -/
def ofTag? (tag : String) : Option Kind := all.find? (·.tag = tag)

theorem ofCode?_code (kind : Kind) : ofCode? kind.code = some kind := by
  cases kind <;> rfl

theorem ofTag?_tag (kind : Kind) : ofTag? kind.tag = some kind := by
  cases kind <;> decide

/-- Blanks and comments carry no meaning. -/
def isSilent (kind : Kind) : Bool := kind = .whitespace || kind = .comment

/-- The source text of a keyword, operator or punctuation mark; other kinds have no fixed text. -/
def spelling? : Kind → Option String
  | .andKw => some "and"
  | .endKw => some "end"
  | .falseKw => some "false"
  | .functionKw => some "function"
  | .localKw => some "local"
  | .nilKw => some "nil"
  | .notKw => some "not"
  | .orKw => some "or"
  | .returnKw => some "return"
  | .trueKw => some "true"
  | .plus => some "+"
  | .minus => some "-"
  | .star => some "*"
  | .slash => some "/"
  | .doubleSlash => some "//"
  | .percent => some "%"
  | .caret => some "^"
  | .amp => some "&"
  | .pipe => some "|"
  | .tilde => some "~"
  | .shl => some "<<"
  | .shr => some ">>"
  | .concat => some ".."
  | .hash => some "#"
  | .eqEq => some "=="
  | .notEq => some "~="
  | .lt => some "<"
  | .ltEq => some "<="
  | .gt => some ">"
  | .gtEq => some ">="
  | .eq => some "="
  | .lParen => some "("
  | .rParen => some ")"
  | .lBracket => some "["
  | .rBracket => some "]"
  | .lBrace => some "\x7b"
  | .rBrace => some "\x7d"
  | .dot => some "."
  | .colon => some ":"
  | .comma => some ","
  | .semicolon => some ";"
  | .ellipsis => some "..."
  | _ => none

/-- Tokens that may stand between two operands. -/
def joinsOperands : Kind → Bool
  | .plus | .minus | .star | .slash | .doubleSlash | .percent | .caret
  | .amp | .pipe | .tilde | .shl | .shr
  | .concat | .eqEq | .notEq | .lt | .ltEq | .gt | .gtEq | .andKw | .orKw => true
  | _ => false

/-- Tokens that may stand before a single operand. -/
def precedesOperand : Kind → Bool
  | .minus | .notKw | .hash | .tilde => true
  | _ => false

end Kind

end LuaTypes
