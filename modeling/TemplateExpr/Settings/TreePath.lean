/-!
# Paths

A path is a list of segments, which stand between the slashes of its text. The empty segment and a single dot stay
where they are and do not count as components, except for a dot that a path begins with. The parent of a path is what
is left of its text without the last component.
-/

namespace TemplateExpr

/-- A path, as the segments between the slashes of its text. -/
structure TreePath where
  segments : List String
  deriving DecidableEq, Inhabited

namespace TreePath

/-! ### Segments -/

/-- Whether a segment stays where it is. -/
def isIdle (segment : String) : Bool := segment = "" || segment = "."

/-- Leaves out the idle segments at the end. -/
def trimEnd (segments : List String) : List String := (segments.reverse.dropWhile isIdle).reverse

/-- The segments that are not idle. -/
def names (segments : List String) : List String := segments.filter fun s => !isIdle s

theorem trimEnd_isPrefix (segments : List String) : trimEnd segments <+: segments := by
  have := List.reverse_prefix.2 (List.dropWhile_suffix isIdle (l := segments.reverse))
  rwa [List.reverse_reverse] at this

/-- What is left is nothing, or has a last segment that is not idle. -/
theorem trimEnd_cases (segments : List String) :
    trimEnd segments = [] ∨ ∃ above name, trimEnd segments = above ++ [name] ∧ isIdle name = false := by
  unfold trimEnd
  cases hr : segments.reverse.dropWhile isIdle with
  | nil => exact .inl rfl
  | cons name rest =>
    have := List.head_dropWhile_not (l := segments.reverse) isIdle (by simp [hr])
    exact .inr ⟨rest.reverse, name, List.reverse_cons, by simpa [hr] using this⟩

private theorem filter_dropWhile (segments : List String) :
    ((segments.dropWhile isIdle).filter fun s => !isIdle s) = segments.filter fun s => !isIdle s := by
  induction segments with
  | nil => rfl
  | cons s segments ih =>
    cases h : isIdle s with
    | true => simp [h, ih]
    | false => simp [h]

@[simp] theorem names_trimEnd (segments : List String) : names (trimEnd segments) = names segments := by
  simp only [trimEnd, names, List.filter_reverse, filter_dropWhile, List.reverse_reverse]

theorem names_concat {name : String} (h : isIdle name = false) (above : List String) :
    names (above ++ [name]) = names above ++ [name] := by
  rw [names, List.filter_append, List.filter_cons_of_pos (by rw [h]; rfl), List.filter_nil, names]

/-! ### Paths -/

def ofText (text : String) : TreePath := ⟨text.splitOn "/"⟩

def text (p : TreePath) : String := String.intercalate "/" p.segments

/-- Whether the text of the path begins with a slash. -/
def isAbsolute (p : TreePath) : Bool := p.segments.head? = some "" && 1 < p.segments.length

/-- The dot that a path begins with, if it does, and the segments after it. -/
def split (p : TreePath) : List String × List String :=
  match p.segments with
  | "." :: rest => (["."], rest)
  | segments => ([], segments)

/-- The components of a path: all segments that are not idle, and a dot that the path begins with. -/
def components (p : TreePath) : List String := p.split.1 ++ names p.split.2

/-- The path whose text is a single slash. -/
def slash : TreePath := ⟨["", ""]⟩

/-- Leaves out the last component, if there is one. An absolute path stays absolute. -/
def parent? (p : TreePath) : Option TreePath :=
  let rest := trimEnd p.split.2
  if rest.isEmpty then
    if p.split.1.isEmpty then none else some ⟨[]⟩
  else
    let above := trimEnd rest.dropLast
    some (if p.isAbsolute && above.isEmpty then slash else ⟨p.split.1 ++ above⟩)

/-- Adds a name, after a slash unless the text of the path is empty or ends with one. -/
def child (p : TreePath) (name : String) : TreePath :=
  match p.segments.reverse with
  | "" :: above => ⟨above.reverse ++ [name]⟩
  | _ => ⟨p.segments ++ [name]⟩

theorem split_cases (p : TreePath) :
    (∃ rest, p.segments = "." :: rest ∧ p.split = (["."], rest)) ∨
      p.segments.head? ≠ some "." ∧ p.split = ([], p.segments) := by
  unfold split
  split
  case h_1 rest h => exact .inl ⟨rest, h, rfl⟩
  case h_2 h =>
    refine .inr ⟨fun hdot => ?_, rfl⟩
    obtain ⟨rest, hrest⟩ := List.head?_eq_some_iff.1 hdot
    exact h rest hrest

theorem split_of_head?_ne {segments : List String} (h : segments.head? ≠ some ".") :
    split ⟨segments⟩ = ([], segments) := by
  obtain ⟨rest, hrest, -⟩ | ⟨-, hsplit⟩ := split_cases ⟨segments⟩
  · exact absurd (List.head?_eq_some_iff.2 ⟨rest, hrest⟩) h
  · exact hsplit

/-- The beginning of a path has the same dot. -/
theorem split_of_isPrefix {p : TreePath} {above : List String} (h : above <+: p.split.2) :
    split ⟨p.split.1 ++ above⟩ = (p.split.1, above) := by
  obtain ⟨rest, hsegments, hsplit⟩ | ⟨hne, hsplit⟩ := p.split_cases
  · rw [hsplit]
    rfl
  · rw [hsplit] at h ⊢
    refine split_of_head?_ne fun hdot => hne ?_
    obtain ⟨below, hbelow⟩ : above <+: p.segments := h
    rw [List.nil_append] at hdot
    rw [← hbelow, List.head?_append, hdot, Option.some_or]

theorem split_of_isAbsolute {p : TreePath} (h : p.isAbsolute = true) : p.split = ([], p.segments) := by
  obtain ⟨rest, hsegments, -⟩ | ⟨-, hsplit⟩ := p.split_cases
  · simp [isAbsolute, hsegments] at h
  · exact hsplit

/-- The parent of a path, whether or not there is more than a dot. -/
theorem parent?_cases (p : TreePath) :
    (names p.split.2 = [] ∧ p.parent? = if p.split.1.isEmpty then none else some ⟨[]⟩) ∨
    ∃ above name, above <+: p.split.2 ∧ names p.split.2 = names above ++ [name] ∧
      p.parent? = some
        (if p.isAbsolute && (trimEnd above).isEmpty then slash else ⟨p.split.1 ++ trimEnd above⟩) := by
  unfold parent?
  rw [← names_trimEnd]
  obtain hnil | ⟨above, name, htrim, hname⟩ := trimEnd_cases p.split.2
  · rw [hnil]
    exact .inl ⟨rfl, rfl⟩
  · have hprefix : above <+: p.split.2 :=
      (List.prefix_append above [name]).trans (htrim ▸ trimEnd_isPrefix p.split.2)
    refine .inr ⟨above, name, hprefix, ?_, ?_⟩
    · rw [htrim, names_concat hname]
    · simp [htrim]

/-- A parent lacks the last component. -/
theorem components_of_parent? {p q : TreePath} (h : p.parent? = some q) :
    ∃ name, p.components = q.components ++ [name] := by
  obtain ⟨hnames, hparent⟩ | ⟨above, name, hprefix, hnames, hparent⟩ := p.parent?_cases
  all_goals rw [hparent] at h
  · obtain ⟨rest, -, hsplit⟩ | ⟨-, hsplit⟩ := p.split_cases
    all_goals
      rw [hsplit] at h
      cases h
    exact ⟨".", by rw [components, hnames, hsplit]; rfl⟩
  · refine ⟨name, ?_⟩
    rw [components, hnames, ← List.append_assoc]
    congr 1
    by_cases hslash : (p.isAbsolute && (trimEnd above).isEmpty) = true
    · rw [if_pos hslash] at h
      cases h
      rw [Bool.and_eq_true, List.isEmpty_iff] at hslash
      rw [split_of_isAbsolute hslash.1, ← names_trimEnd above, hslash.2]
      rfl
    · rw [if_neg hslash] at h
      cases h
      rw [components, split_of_isPrefix ((trimEnd_isPrefix above).trans hprefix), names_trimEnd]

example : parent? ⟨[".", "a", "", "b", ""]⟩ = some ⟨[".", "a"]⟩ := by decide
example : parent? ⟨["."]⟩ = some ⟨[]⟩ := by decide
example : parent? ⟨["", "a"]⟩ = some slash := by decide

theorem length_components_parent? {p q : TreePath} (h : p.parent? = some q) :
    q.components.length < p.components.length := by
  obtain ⟨name, hname⟩ := components_of_parent? h
  rw [hname, List.length_append]
  exact Nat.lt_add_one _

end TreePath

end TemplateExpr
