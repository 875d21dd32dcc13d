/-
Assigned variables.

A variable is assigned where an optional `var` or scope, a name and a single equals sign stand at
the start of a statement: in script at the start of a line or behind a semicolon or a brace, in tag
markup behind `<cfset`. What is declared with `var` is local, and a name without a scope belongs to
the scope `variables`.
-/
import Cfml.Comment.Spans
import Cfml.Declaration.Function

set_option autoImplicit false

namespace Cfml

/-- A variable that is assigned in a source. -/
structure Assignment where
  identifier : List Char
  scope : List Char
  span : Span

namespace Assignment

/-- The scopes that a name can be written with. -/
def scopes : List (List Char) :=
  ["variables".toList, "this".toList, "local".toList, "arguments".toList, "request".toList,
    "application".toList, "session".toList, "server".toList]

/-- What is assigned to: whether it is declared, its scope as written, and its name. -/
structure Target where
  isDeclared : Bool
  scope : Option (List Char)
  name : Capture

/-- Reads a scope and the dot behind it. -/
def scope? (r : Reader) : Option (List Char × Reader) :=
  scopes.findSome? fun scope => do
    let behind ← r.caseless? scope
    return ((r.upTo behind).text, (← behind.blanks.one? (· == '.')).blanks)

/-- Reads a name and an equals sign that no other one follows. -/
def assigned? (r : Reader) : Option (Capture × Reader) := do
  let (name, r) ← r.name? FunctionDecl.isNameStart isIdentifierPart
  let r ← r.blanks.one? (· == '=')
  if r.ahead.head? == some '=' then none else some (name, r)

/-- Reads a name with an optional scope. A scope that nothing can be assigned to is a name. -/
def scoped? (isDeclared : Bool) (r : Reader) : Option (Target × Reader) :=
  let inScope := do
    let (scope, r) ← scope? r
    let (name, r) ← assigned? r
    return (⟨isDeclared, some scope, name⟩, r)
  inScope <|> (assigned? r).map fun (name, r) => (⟨isDeclared, none, name⟩, r)

/-- Reads what is assigned to. The word `var` is a name where it has to be. -/
def target? (r : Reader) : Option (Target × Reader) :=
  ((FunctionDecl.modifier? "var".toList r).bind fun (_, r) => scoped? true r) <|> scoped? false r

/-- Whether a line starts at the place. -/
def atLineStart (r : Reader) : Bool := r.before.isNone || r.isAfter (· == '\n')

/-- Reads an assignment in script from the start of its statement. -/
def script? (r : Reader) : Option (Target × Reader) :=
  let statement (r : Reader) := target? (r.skipWhile fun c => c == ' ' || c == '\t')
  (if atLineStart r then statement r else none) <|>
    (r.one? fun c => c == ';' || c == '{' || c == '}').bind statement

/-- Reads an assignment in tag markup. -/
def tag? (r : Reader) : Option (Target × Reader) := do
  let r ← r.one? (· == '<')
  target? (← (← r.caseless? "cfset".toList).some? isBlank)

variable {r later : Reader} {target : Target}

theorem scope?_reaches {scope : List Char} (h : scope? r = some (scope, later)) :
    r.Reaches later := by
  obtain ⟨_, -, hscope⟩ := List.exists_of_findSome?_eq_some h
  simp only [Option.bind_eq_bind, Option.bind_eq_some_iff] at hscope
  obtain ⟨behind, hword, dot, hdot, heq⟩ := hscope
  obtain ⟨-, rfl⟩ := by simpa using heq
  exact ((Reader.caseless?_reaches hword).trans behind.blanks_reaches).trans
    ((Reader.one?_reaches hdot).trans dot.blanks_reaches)

theorem assigned?_reaches {name : Capture} (h : assigned? r = some (name, later)) :
    r.Reaches later := by
  simp only [assigned?, Option.bind_eq_bind, Option.bind_eq_some_iff, Prod.exists] at h
  obtain ⟨_, behind, hname, sign, hsign, heq⟩ := h
  split at heq
  · exact absurd heq (by simp)
  · obtain ⟨-, rfl⟩ := by simpa using heq
    exact ((Reader.name?_reaches hname).trans behind.blanks_reaches).trans
      (Reader.one?_reaches hsign)

theorem scoped?_reaches {isDeclared : Bool} (h : scoped? isDeclared r = some (target, later)) :
    r.Reaches later := by
  rcases Reader.eq_some_of_orElse h with hscoped | hplain
  · simp only [Option.bind_eq_bind, Option.bind_eq_some_iff, Prod.exists] at hscoped
    obtain ⟨_, _, hscope, _, _, hassigned, heq⟩ := hscoped
    obtain ⟨-, rfl⟩ := by simpa using heq
    exact (scope?_reaches hscope).trans (assigned?_reaches hassigned)
  · simp only [Option.map_eq_some_iff, Prod.exists] at hplain
    obtain ⟨_, _, hassigned, heq⟩ := hplain
    obtain ⟨-, rfl⟩ := by simpa using heq
    exact assigned?_reaches hassigned

theorem target?_reaches (h : target? r = some (target, later)) : r.Reaches later := by
  rcases Reader.eq_some_of_orElse h with hdeclared | hplain
  · simp only [Option.bind_eq_some_iff, Prod.exists] at hdeclared
    obtain ⟨_, _, hword, hscoped⟩ := hdeclared
    exact (FunctionDecl.modifier?_reaches hword).trans (scoped?_reaches hscoped)
  · exact scoped?_reaches hplain

theorem script?_reaches (h : script? r = some (target, later)) : r.Reaches later := by
  rcases Reader.eq_some_of_orElse h with hline | hbehind
  · split at hline
    · exact (r.skipWhile_reaches _).trans (target?_reaches hline)
    · exact absurd hline (by simp)
  · obtain ⟨start, hstart, htarget⟩ := Option.bind_eq_some_iff.mp hbehind
    exact (Reader.one?_reaches hstart).trans
      ((start.skipWhile_reaches _).trans (target?_reaches htarget))

theorem tag?_reaches (h : tag? r = some (target, later)) : r.Reaches later := by
  simp only [tag?, Option.bind_eq_bind, Option.bind_eq_some_iff] at h
  obtain ⟨_, hopen, _, hname, _, hblank, htarget⟩ := h
  exact (Reader.one?_reaches hopen).trans ((Reader.caseless?_reaches hname).trans
    ((Reader.some?_reaches hblank).trans (target?_reaches htarget)))

/-- The pattern of an assignment in a dialect. -/
def pattern : Dialect → Pattern Target
  | .script => ⟨script?, script?_reaches⟩
  | .tag => ⟨tag?, tag?_reaches⟩

/-- The scope that a target belongs to. -/
def Target.scopeName (target : Target) : List Char :=
  if target.isDeclared then "local".toList else (target.scope.map lower).getD "variables".toList

end Assignment

/-- The variables that are assigned within a span of the source, comments aside, in order. -/
def Source.assignments (src : Source) (dialect : Dialect) (within : Option Span) :
    List Assignment :=
  let clean := src.withoutComments dialect false
  (clean.occurrencesIn within (Assignment.pattern dialect)).map fun found =>
    { identifier := found.value.name.text
      scope := found.value.scopeName
      span := src.spanOf found.value.name.stretch }

end Cfml
