/-! # Kinds of nodes and their fields

    A syntax tree is made of twenty kinds of nodes.  This module names the
    kinds, the fields that hold child nodes and the attributes that hold plain
    values, and gives for every kind the table of its members in the order in
    which they are written. -/

namespace ShellInliner

/-! ### Kinds -/

/-- The kind of a node. -/
inductive Kind
  | script
  | pipeline
  | logicalExpression
  | command
  | function
  /-- The name of a function or of a loop variable. -/
  | name
  /-- A list of statements. -/
  | compoundList
  | subshell
  | forLoop
  | caseOf
  | caseItem
  | ifElse
  | whileLoop
  | untilLoop
  | redirect
  /-- A word as written, quotes included. -/
  | word
  | assignmentWord
  | arithmeticExpansion
  | commandExpansion
  | parameterExpansion
  deriving DecidableEq, Repr, Inhabited

namespace Kind

def all : List Kind :=
  [script, pipeline, logicalExpression, command, function, name, compoundList, subshell, forLoop,
   caseOf, caseItem, ifElse, whileLoop, untilLoop, redirect, word, assignmentWord,
   arithmeticExpansion, commandExpansion, parameterExpansion]

/-- The name of a kind in a written tree. -/
def label : Kind → String
  | script => "Script"
  | pipeline => "Pipeline"
  | logicalExpression => "LogicalExpression"
  | command => "Command"
  | function => "Function"
  | name => "Name"
  | compoundList => "CompoundList"
  | subshell => "Subshell"
  | forLoop => "For"
  | caseOf => "Case"
  | caseItem => "CaseItem"
  | ifElse => "If"
  | whileLoop => "While"
  | untilLoop => "Until"
  | redirect => "Redirect"
  | word => "Word"
  | assignmentWord => "AssignmentWord"
  | arithmeticExpansion => "ArithmeticExpansion"
  | commandExpansion => "CommandExpansion"
  | parameterExpansion => "ParameterExpansion"

/-- The kind of a given name. -/
def ofLabel? (s : String) : Option Kind :=
  all.find? (·.label == s)

/-- The kinds that may stand in a list of statements. -/
def statements : List Kind :=
  [logicalExpression, pipeline, command, function, compoundList, subshell, forLoop, caseOf,
   ifElse, whileLoop, untilLoop]

def expansions : List Kind :=
  [arithmeticExpansion, commandExpansion, parameterExpansion]

def isExpansion (k : Kind) : Bool :=
  expansions.contains k

/-- Leaves are never looked into when a tree is visited. -/
def isLeaf (k : Kind) : Bool :=
  k == word || k == assignmentWord || k == name || k.isExpansion

end Kind

/-! ### Fields -/

/-- The role of a child in its parent. -/
inductive Field
  | name
  | body
  | left
  | right
  | list
  | loopBody
  /-- The condition of a loop or a conditional, or the word a choice is about. -/
  | clause
  | thenBranch
  | elseBranch
  | file
  | commands
  /-- Assignments and redirections before the name of a command. -/
  | leading
  /-- Arguments and redirections after the name of a command. -/
  | suffix
  | redirections
  | wordlist
  | cases
  | pattern
  | expansion
  deriving DecidableEq, Repr, Inhabited

namespace Field

def all : List Field :=
  [name, body, left, right, list, loopBody, clause, thenBranch, elseBranch, file, commands,
   leading, suffix, redirections, wordlist, cases, pattern, expansion]

/-- The name of a field in a written tree. -/
def key : Field → String
  | name => "name"
  | body => "body"
  | left => "left"
  | right => "right"
  | list => "list"
  | loopBody => "do"
  | clause => "clause"
  | thenBranch => "then"
  | elseBranch => "else"
  | file => "file"
  | commands => "commands"
  | leading => "prefix"
  | suffix => "suffix"
  | redirections => "redirections"
  | wordlist => "wordlist"
  | cases => "cases"
  | pattern => "pattern"
  | expansion => "expansion"

/-- The name of a field in messages, which is also accepted when a tree is
    read: a name that is a keyword elsewhere has an underscore at its end. -/
def longKey : Field → String
  | elseBranch => "else_"
  | f => f.key

/-- Does the field hold any number of children, in order? -/
def isSequence : Field → Bool
  | commands | leading | suffix | redirections | wordlist | cases | pattern | expansion => true
  | _ => false

end Field

/-! ### Attributes -/

/-- The plain values a node carries. -/
inductive Attribute
  | async
  | bang
  | op
  /-- The file descriptor that is redirected. -/
  | number
  | text
  | expression
  /-- Has the expansion been carried out? -/
  | resolved
  | command
  | backquoted
  | parameter
  /-- What the operator of a parameter expansion does. -/
  | kind
  /-- The text after the operator of a parameter expansion. -/
  | word
  | braced
  deriving DecidableEq, Repr, Inhabited

namespace Attribute

/-- The name of an attribute in a written tree. -/
def key : Attribute → String
  | async => "async"
  | bang => "bang"
  | op => "op"
  | number => "numberIo"
  | text => "text"
  | expression => "expression"
  | resolved => "resolved"
  | command => "command"
  | backquoted => "backquoted"
  | parameter => "parameter"
  | kind => "kind"
  | word => "word"
  | braced => "braced"

/-- A second name that is accepted when a tree is read. -/
def longKey : Attribute → String
  | async => "async_"
  | number => "number_io"
  | a => a.key

end Attribute

/-- The type of an attribute.  Flags are off unless given, and the two
    optional types are absent unless given; the others have to be given. -/
inductive AttributeType
  | flag
  | text
  | connective
  | optionalNumber
  | optionalText
  deriving DecidableEq, Repr

/-! ### The table of members -/

/-- How many children a field holds. -/
inductive Arity
  | required
  | optional
  | many
  deriving DecidableEq, Repr

/-- Which children a field admits. -/
inductive Admission
  /-- Nodes of one kind, which need not say so. -/
  | only (kind : Kind)
  /-- Nodes of several kinds, told apart by the kind they state. -/
  | oneOf (kinds : List Kind)
  deriving DecidableEq, Repr

/-- The kinds a field admits. -/
def Admission.kinds : Admission → List Kind
  | only k => [k]
  | oneOf ks => ks

/-- One member of a node: an attribute or a field with children. -/
inductive Member
  | attribute (name : Attribute) (type : AttributeType)
  | child (field : Field) (arity : Arity) (admission : Admission)
  deriving DecidableEq, Repr

namespace Kind

/-- The members of a kind beside its location, in the order they are written. -/
def members : Kind → List Member
  | script => [.child .commands .many (.oneOf statements)]
  | pipeline =>
    [.attribute .async .flag, .child .commands .many (.oneOf statements), .attribute .bang .flag]
  | logicalExpression =>
    [.attribute .async .flag, .attribute .op .connective,
     .child .left .required (.oneOf statements), .child .right .required (.oneOf statements)]
  -- A command of assignments and redirections only has no name.
  | command =>
    [.attribute .async .flag, .child .name .optional (.only word),
     .child .leading .many (.oneOf [assignmentWord, redirect]),
     .child .suffix .many (.oneOf [word, redirect])]
  | function =>
    [.attribute .async .flag, .child .name .required (.only name),
     .child .body .required (.only compoundList), .child .redirections .many (.only redirect)]
  | name => [.attribute .text .text]
  | compoundList =>
    [.attribute .async .flag, .child .commands .many (.oneOf statements),
     .child .redirections .many (.only redirect)]
  | subshell =>
    [.attribute .async .flag, .child .list .required (.only compoundList),
     .child .redirections .many (.only redirect)]
  | forLoop =>
    [.attribute .async .flag, .child .name .required (.only name),
     .child .wordlist .many (.only word), .child .loopBody .required (.only compoundList),
     .child .redirections .many (.only redirect)]
  | caseOf =>
    [.attribute .async .flag, .child .clause .required (.only word),
     .child .cases .many (.only caseItem), .child .redirections .many (.only redirect)]
  | caseItem =>
    [.child .pattern .many (.only word), .child .body .required (.only compoundList)]
  -- A script that is read always has the first branch; a tree that is loaded may lack it.
  | ifElse =>
    [.attribute .async .flag, .child .clause .required (.only compoundList),
     .child .thenBranch .optional (.only compoundList),
     .child .elseBranch .optional (.only compoundList),
     .child .redirections .many (.only redirect)]
  | whileLoop | untilLoop =>
    [.attribute .async .flag, .child .clause .required (.only compoundList),
     .child .loopBody .required (.only compoundList),
     .child .redirections .many (.only redirect)]
  | redirect =>
    [.attribute .op .text, .child .file .required (.only word),
     .attribute .number .optionalNumber]
  | word | assignmentWord =>
    [.attribute .text .text, .child .expansion .many (.oneOf expansions)]
  -- Expansions hold the text inside them, not a tree of it.
  | arithmeticExpansion => [.attribute .expression .text, .attribute .resolved .flag]
  | commandExpansion =>
    [.attribute .command .text, .attribute .backquoted .flag, .attribute .resolved .flag]
  | parameterExpansion =>
    [.attribute .parameter .text, .attribute .kind .optionalText, .attribute .word .optionalText,
     .attribute .op .optionalText, .attribute .braced .flag]

/-- The fields of a kind that hold at most one child, in order. -/
def singleFields (k : Kind) : List Field :=
  k.members.filterMap fun
    | .child f .required _ => some f
    | .child f .optional _ => some f
    | _ => none

/-- The fields of a kind that hold any number of children, in order. -/
def sequenceFields (k : Kind) : List Field :=
  k.members.filterMap fun
    | .child f .many _ => some f
    | _ => none

/-- The fields of a kind in the order in which they are visited: those that
    hold one child come before the sequences. -/
def fieldOrder (k : Kind) : List Field :=
  k.singleFields ++ k.sequenceFields

/-- Must the field of this kind hold a child? -/
def requires (k : Kind) (f : Field) : Bool :=
  k.members.any fun
    | .child g .required _ => g == f
    | _ => false

end Kind

end ShellInliner
