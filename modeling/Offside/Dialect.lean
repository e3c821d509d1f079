import Offside.Token.Keyword

/-! # Dialects

The language has one grammar and several spellings of its reserved words. A dialect is one such
spelling; a word it does not list is an ordinary name. -/

namespace Offside

/-- A spelling of the reserved words. -/
inductive Dialect where
  | portuguese | english
deriving DecidableEq, Repr, Inhabited

namespace Dialect

/-- Every dialect; the first is the one used when none is named. -/
def all : List Dialect := [.portuguese, .english]

/-- The name by which a dialect is asked for. -/
def name : Dialect → String
  | .portuguese => "portuguese"
  | .english => "english"

/-- The dialect with the given name. -/
def ofName? (n : String) : Option Dialect := all.find? (·.name == n)

/-- Why a name stands for no dialect. -/
def unknownMessage : String := "Matching variant not found"

/-- How the Portuguese dialect spells a reserved word. -/
def portugueseSpelling : Keyword → String
  | .andKw => "e"
  | .assertKw => "garantir"
  | .breakKw => "interromper"
  | .classKw => "classe"
  | .continueKw => "continuar"
  | .defineKw => "define"
  | .delKw => "apagar"
  | .elifKw => "senao"
  | .elseKw => "else"
  | .exceptKw => "exceto"
  | .execKw => "executar"
  | .finallyKw => "finalmente"
  | .forKw => "para"
  | .fromKw => "de"
  | .globalKw => "global"
  | .ifKw => "se"
  | .importKw => "importar"
  | .inKw => "em"
  | .isKw => "is"
  | .lambdaKw => "lambda"
  | .notKw => "nao"
  | .orKw => "ou"
  | .passKw => "passar"
  | .printKw => "exibir"
  | .raiseKw => "raise"
  | .returnKw => "retornar"
  | .tryKw => "tentar"
  | .whileKw => "enquanto"

/-- How the English dialect spells a reserved word. -/
def englishSpelling : Keyword → String
  | .andKw => "and"
  | .assertKw => "assert"
  | .breakKw => "break"
  | .classKw => "class"
  | .continueKw => "continue"
  | .defineKw => "def"
  | .delKw => "del"
  | .elifKw => "elif"
  | .elseKw => "else"
  | .exceptKw => "except"
  | .execKw => "exec"
  | .finallyKw => "finally"
  | .forKw => "for"
  | .fromKw => "from"
  | .globalKw => "global"
  | .ifKw => "if"
  | .importKw => "import"
  | .inKw => "in"
  | .isKw => "is"
  | .lambdaKw => "lambda"
  | .notKw => "not"
  | .orKw => "or"
  | .passKw => "pass"
  | .printKw => "print"
  | .raiseKw => "raise"
  | .returnKw => "return"
  | .tryKw => "try"
  | .whileKw => "while"

/-- How a dialect spells a reserved word. -/
def spelling : Dialect → Keyword → String
  | .portuguese => portugueseSpelling
  | .english => englishSpelling

/-- The reserved word that a dialect spells as `word`. -/
def keyword? (d : Dialect) (word : String) : Option Keyword :=
  Keyword.all.find? (d.spelling · == word)

/-- A dialect reads back every word that it spells: no two reserved words look alike in it. -/
theorem keyword?_spelling (d : Dialect) (k : Keyword) : d.keyword? (d.spelling k) = some k := by
  cases d <;> cases k <;> decide

end Dialect

end Offside
