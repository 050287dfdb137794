import SqlStatement.Dialect

/-!
# Quoted literals

A literal runs from a quote character to the quote that closes it. Reading one
off a text gives the literal and the rest, so nothing is lost. Strings are
written with `Dialect.quoteString` and read back with
`Dialect.unquoteString?`.
-/
namespace SqlStatement

/-- Cuts the text behind an opening quote right after the closing one. -/
def Escape.close? (e : Escape) (q : Char) : Text → Option (Text × Text)
  | [] => none
  | [c] => if c = q then some ([c], []) else none
  | c :: c' :: rest =>
      if c = '\\' ∧ e = .backslash then
        (e.close? q rest).map fun r => (c :: c' :: r.1, r.2)
      else if c = q then
        if c' = q ∧ e ≠ .never then (e.close? q rest).map fun r => (c :: c' :: r.1, r.2)
        else some ([c], c' :: rest)
      else (e.close? q (c' :: rest)).map fun r => (c :: r.1, r.2)

namespace Dialect

/-- The string literal at the start of a text, and the rest. -/
def stringLiteral? (d : Dialect) : Text → Option (Text × Text)
  | [] => none
  | q :: rest =>
      if d.isStringQuote q then (d.stringEscape.close? q rest).map fun r => (q :: r.1, r.2)
      else none

/-- The quoted identifier at the start of a text, and the rest. -/
def identifierLiteral? (d : Dialect) : Text → Option (Text × Text)
  | [] => none
  | q :: rest =>
      if q = d.identifierQuote then (Escape.never.close? q rest).map fun r => (q :: r.1, r.2)
      else none

/-- The literal at the start of a text, be it a string or an identifier, and the rest. -/
def literal? (d : Dialect) (t : Text) : Option (Text × Text) :=
  (d.stringLiteral? t).or (d.identifierLiteral? t)

/-- Whether the text is one string literal and nothing else. -/
def isQuotedString (d : Dialect) (t : Text) : Bool :=
  match d.stringLiteral? t with
  | some (_, []) => true
  | _ => false

/-- What stands for a character inside a string literal. -/
def escapeChar : Dialect → Char → Text
  | generic, c => if c = '\'' then ['\'', '\''] else [c]
  | mysql, c =>
      if c = '\x00' then ['\\', '0']
      else if c = '\r' then ['\\', 'r']
      else if c = '\n' then ['\\', 'n']
      else if c = '\x0c' then ['\\', 'f']
      else if c = '\t' then ['\\', 't']
      else if c = '\'' then ['\\', '\'']
      else if c = '\\' then ['\\', '\\']
      else [c]

/-- The string literal for a text. -/
def quoteString (d : Dialect) (t : Text) : Text :=
  d.stringQuote :: (t.flatMap d.escapeChar ++ [d.stringQuote])

/-- The character a backslash escape stands for. -/
def unescapeChar (c : Char) : Char :=
  if c = '0' then '\x00'
  else if c = 'b' then '\x08'
  else if c = 'n' then '\n'
  else if c = 'r' then '\r'
  else if c = 't' then '\t'
  else if c = 'f' then '\x0c'
  else if c = 'Z' then '\x1a'
  else c

/-- The text between the quotes of a string literal, with its escapes resolved. -/
def unescape (d : Dialect) (q : Char) : Text → Text
  | [] => []
  | [c] => [c]
  | c :: c' :: rest =>
      if c = q ∧ c' = q then q :: d.unescape q rest
      else if c = '\\' ∧ d.stringEscape = .backslash then unescapeChar c' :: d.unescape q rest
      else c :: d.unescape q (c' :: rest)

/-- The text of a string literal, if the whole text is one. -/
def unquoteString? (d : Dialect) (t : Text) : Option Text :=
  match t, d.isQuotedString t with
  | q :: body, true => some (d.unescape q body.dropLast)
  | _, _ => none

end Dialect

/-- A literal and the rest make up the text. -/
theorem Escape.close?_append {e : Escape} {q : Char} {t lit rest : Text}
    (h : e.close? q t = some (lit, rest)) : lit ++ rest = t := by
  fun_induction Escape.close? e q t generalizing lit rest with
  | case1 => simp at h
  | case2 => simp at h; simp [← h.1, ← h.2]
  | case3 => simp at h
  | case4 c c' r _ ih =>
      obtain ⟨x, hx, he⟩ := Option.map_eq_some_iff.mp h
      cases he
      simp [ih hx]
  | case5 c' r _ _ ih =>
      obtain ⟨x, hx, he⟩ := Option.map_eq_some_iff.mp h
      cases he
      simp [ih hx]
  | case6 => simp at h; simp [← h.1, ← h.2]
  | case7 c c' r _ _ ih =>
      obtain ⟨x, hx, he⟩ := Option.map_eq_some_iff.mp h
      cases he
      simp [ih hx]

theorem Dialect.stringLiteral?_append {d : Dialect} {t lit rest : Text}
    (h : d.stringLiteral? t = some (lit, rest)) : lit ++ rest = t := by
  cases t with
  | nil => simp [Dialect.stringLiteral?] at h
  | cons q t =>
      simp only [Dialect.stringLiteral?] at h
      split at h
      · obtain ⟨x, hx, he⟩ := Option.map_eq_some_iff.mp h
        cases he
        simp [Escape.close?_append hx]
      · simp at h

theorem Dialect.identifierLiteral?_append {d : Dialect} {t lit rest : Text}
    (h : d.identifierLiteral? t = some (lit, rest)) : lit ++ rest = t := by
  cases t with
  | nil => simp [Dialect.identifierLiteral?] at h
  | cons q t =>
      simp only [Dialect.identifierLiteral?] at h
      split at h
      · obtain ⟨x, hx, he⟩ := Option.map_eq_some_iff.mp h
        cases he
        simp [Escape.close?_append hx]
      · simp at h

theorem Dialect.literal?_append {d : Dialect} {t lit rest : Text}
    (h : d.literal? t = some (lit, rest)) : lit ++ rest = t := by
  simp only [Dialect.literal?, Option.or_eq_some_iff] at h
  rcases h with h | ⟨_, h⟩
  · exact Dialect.stringLiteral?_append h
  · exact Dialect.identifierLiteral?_append h

/-- A literal is not empty: the rest is shorter than the text. -/
theorem Dialect.literal?_length {d : Dialect} {t lit rest : Text}
    (h : d.literal? t = some (lit, rest)) : rest.length < t.length := by
  have hne : lit ≠ [] := by
    rintro rfl
    cases t with
    | nil => simp [Dialect.literal?, Dialect.stringLiteral?, Dialect.identifierLiteral?] at h
    | cons q t =>
        simp only [Dialect.literal?, Dialect.stringLiteral?, Dialect.identifierLiteral?,
          Option.or_eq_some_iff] at h
        rcases h with h | ⟨_, h⟩ <;> split at h <;> simp at h
  rw [← Dialect.literal?_append h, List.length_append]
  have := List.length_pos_iff.mpr hne
  omega

end SqlStatement
