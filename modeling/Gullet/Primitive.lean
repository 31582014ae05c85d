import Gullet.Settings
import Gullet.Variable

/-!
# Primitives

The commands that are built in. Expansion primitives are replaced by tokens while the input is read;
execution primitives act on the interpreter's state. A tag lets one command recognise another in the
input without running it.
-/

namespace Gullet

/-- The primitives that are expanded. -/
inductive ExpansionPrimitive where
  /-- The command `\@testopt`: supplies an optional argument that is missing. -/
  | supplyDefault
  | csname
  | detokenize
  | elseBranch
  | endInput
  | expandAfter
  | endIf
  | ifCase
  | ifDefined
  | ifFalse
  | ifNum
  | ifOdd
  | ifTrue
  /-- The command `\ifx`: compares the meanings of two tokens. -/
  | ifSame
  | input
  | meaning
  | noExpand
  | number
  /-- The command `\or`: starts the next case of a switch. -/
  | nextCase
  | romanNumeral
  | string
  | the
deriving DecidableEq, Repr

/-- The arithmetic that can be done on a variable. -/
inductive Arithmetic where
  | advance
  | multiply
  | divide
deriving DecidableEq, Repr

/-- What a definition does when its name is in use or not. -/
inductive DefinitionPolicy where
  /-- The name must not be in use. -/
  | new
  /-- The name must be in use. -/
  | renew
  /-- A name that is in use is left alone. -/
  | provide
deriving DecidableEq, Repr

/-- The prefixes of assignments and definitions. -/
inductive PrefixKind where
  | global
  | long
  | shielded
deriving DecidableEq, Repr

/-- A change of the typographic settings. -/
inductive SettingsChange where
  | family (f : Family)
  | weight (w : Weight)
  | shape (s : Shape)
  | size (s : Size)
  | emphasis
  | normalFont
deriving DecidableEq, Repr

/-- The settings after a change. -/
def SettingsChange.apply (s : Settings) : SettingsChange → Settings
  | family f => { s with family := f }
  | weight w => { s with weight := w }
  | shape sh => { s with shape := sh }
  | size sz => { s with size := sz }
  | emphasis => s.toggleEmphasis
  | normalFont => s.normalFont

/-- The primitives that are executed. -/
inductive ExecutionPrimitive where
  | arithmetic (op : Arithmetic)
  | beginEnvironment
  | beginGroup
  /-- The command `\@endenvironment`: closes the group of an environment. -/
  | closeEnvironment
  | color
  /-- The command `\def` and its kin: whether the name is defined everywhere, and whether the
  replacement text is expanded first. -/
  | define (everywhere expanded : Bool)
  | endCsname
  | endEnvironment
  | endGroup
  | href
  | includeGraphics
  /-- The command `\let`: gives a name the meaning of a token. -/
  | letMeaning
  /-- The commands `\makeatletter` and `\makeatother`. -/
  | makeAt (c : CatCode)
  | message
  | newCommand (policy : DefinitionPolicy)
  | newEnvironment (renew : Bool)
  | newIf
  | par
  /-- The command `\global` and its kin. -/
  | modifier (kind : PrefixKind)
  /-- The command `\countdef` and its kin: names a register. -/
  | nameRegister (kind : RegisterKind)
  | relax
  /-- A change that lasts until the group ends. -/
  | switch (change : SettingsChange)
  /-- A change for one argument. -/
  | styled (change : SettingsChange)
  | showMeaning
  | textColor
  | verb
deriving DecidableEq, Repr

/-- The marks by which commands recognise one another. -/
inductive Tag where
  | conditional
  | elseBranch
  | nextCase
  | endIf
  | newIf
  | letMeaning
  | arithmetic
  | nameRegister
  | definition
  | modifier (kind : PrefixKind)
  | noExpand
  | endCsname
deriving DecidableEq, Repr

/-- The tag of an expansion primitive. -/
def ExpansionPrimitive.tag? : ExpansionPrimitive → Option Tag
  | ifCase | ifDefined | ifFalse | ifNum | ifOdd | ifTrue | ifSame => some .conditional
  | elseBranch => some .elseBranch
  | nextCase => some .nextCase
  | endIf => some .endIf
  | noExpand => some .noExpand
  | _ => none

/-- The tag of an execution primitive. -/
def ExecutionPrimitive.tag? : ExecutionPrimitive → Option Tag
  | arithmetic _ => some .arithmetic
  | define _ _ => some .definition
  | endCsname => some .endCsname
  | letMeaning => some .letMeaning
  | newIf => some .newIf
  | modifier kind => some (.modifier kind)
  | nameRegister _ => some .nameRegister
  | _ => none

/-- Whether a command with the tag can follow `\global`. -/
def Tag.acceptsGlobal : Tag → Bool
  | letMeaning | newIf | arithmetic | nameRegister | definition => true
  | _ => false

/-- Whether a command with the tag can follow every prefix. -/
def Tag.acceptsAnyPrefix : Tag → Bool
  | definition => true
  | _ => false

end Gullet
