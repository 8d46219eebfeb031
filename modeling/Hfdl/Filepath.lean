import Mathlib.Data.List.DropRight

/-! Slash-separated paths as text: cleaning, joining, the parent and the last
element of a path. A byte of a path is read as one character. Nothing here looks
at a file system. -/
namespace Hfdl.Filepath

abbrev PathText := List Char

def dot : PathText := ['.']
def dotdot : PathText := ['.', '.']

def isAbs (p : PathText) : Bool := p.head? = some '/'

def components (p : PathText) : List PathText := p.splitOn '/'

def push (rooted : Bool) (out : List PathText) (c : PathText) : List PathText :=
  if c = [] ∨ c = dot then out
  else if c = dotdot then
    if out.getLast? = none ∨ out.getLast? = some dotdot then
      -- nothing to go back over: a rooted path stays at the root
      if rooted then out else out ++ [dotdot]
    else out.dropLast
  else out ++ [c]

def collapse (rooted : Bool) (cs : List PathText) : List PathText := cs.foldl (push rooted) []

def render (rooted : Bool) (cs : List PathText) : PathText :=
  if rooted then '/' :: ['/'].intercalate cs
  else if cs = [] then dot
  else ['/'].intercalate cs

def clean (p : PathText) : PathText := render (isAbs p) (collapse (isAbs p) (components p))

/-- Leading empty elements are ignored; the others are cleaned as one path. -/
def join (elems : List PathText) : PathText :=
  match elems.dropWhile (· = []) with
  | [] => []
  | es => clean (['/'].intercalate es)

def dir (p : PathText) : PathText := clean (p.rdropWhile (· ≠ '/'))

def base (p : PathText) : PathText :=
  if p = [] then dot
  else match (p.rdropWhile (· = '/')).rtakeWhile (· ≠ '/') with
    | [] => ['/']
    | b => b

def abs (cwd p : PathText) : PathText := if isAbs p then clean p else join [cwd, p]

/-- An element that names an entry of a directory. -/
def Plain (c : PathText) : Prop := c ≠ [] ∧ c ≠ dot ∧ c ≠ dotdot ∧ '/' ∉ c
deriving Decidable

def lead (cs : List PathText) : PathText := cs.flatMap fun c => '/' :: c

section Components
variable {cs : List PathText}

theorem components_append (a b : PathText) : components (a ++ '/' :: b) = components a ++ components b :=
  List.splitOnP_append_cons a b (by decide)

theorem components_nil : components [] = [[]] := rfl

theorem components_single (clear : '/' ∉ c) : components c = [c] := by
  have split : List.splitOn '/' (['/'].intercalate [c]) = [c] :=
    List.splitOn_intercalate '/' (by simpa using clear) (by simp)
  simpa [components] using split

theorem components_lead (x : PathText) (clear : ∀ c ∈ cs, '/' ∉ c) : components (x ++ lead cs) = components x ++ cs := by
  induction cs generalizing x with
  | nil => simp [lead]
  | cons c cs ih =>
    have split : x ++ lead (c :: cs) = (x ++ '/' :: c) ++ lead cs := by simp [lead]
    rw [split, ih _ fun c' member => clear c' (List.mem_cons_of_mem _ member), components_append,
      components_single (clear c List.mem_cons_self)]
    simp

theorem slash_not_mem (member : c ∈ components p) : '/' ∉ c := by
  induction p generalizing c with
  | nil =>
    rw [components_nil, List.mem_singleton] at member
    simp [member]
  | cons a p ih =>
    simp only [components, List.splitOn, List.splitOnP_cons_eq_if_modifyHead] at member
    split at member
    · rcases List.mem_cons.mp member with rfl | member
      · simp
      · exact ih member
    · case isFalse other =>
      cases rest : List.splitOnP (fun x => x == '/') p with
      | nil =>
        rw [rest] at member
        cases member
      | cons b bs =>
        rw [rest] at member
        rcases List.mem_cons.mp member with rfl | member
        · have clear : '/' ∉ b := ih (by simp [components, List.splitOn, rest])
          simp only [List.mem_cons, not_or]
          exact ⟨fun same => other (by rw [← same]; rfl), clear⟩
        · exact ih (by simp [components, List.splitOn, rest, member])

theorem intercalate_cons (c : PathText) (cs : List PathText) : ['/'].intercalate (c :: cs) = c ++ lead cs := by
  induction cs generalizing c with
  | nil => simp [lead]
  | cons d cs ih =>
    rw [List.intercalate_cons_cons, ih]
    simp [lead]

theorem mem_of_mem_components {x : Char} (member : c ∈ components p) (held : x ∈ c) : x ∈ p := by
  have whole : ['/'].intercalate (components p) = p := List.intercalate_splitOn '/'
  rw [← whole]
  cases split : components p with
  | nil =>
    rw [split] at member
    cases member
  | cons d ds =>
    rw [split] at member
    rw [intercalate_cons, List.mem_append]
    rcases List.mem_cons.mp member with rfl | member
    · exact Or.inl held
    · exact Or.inr (List.mem_flatMap.mpr ⟨c, member, List.mem_cons_of_mem _ held⟩)

theorem lead_append (cs ds : List PathText) : lead (cs ++ ds) = lead cs ++ lead ds := by simp [lead]

theorem render_rooted (some : cs ≠ []) : render true cs = lead cs := by
  cases cs with
  | nil => exact absurd rfl some
  | cons c cs =>
    simp only [render, if_true, intercalate_cons]
    simp [lead]

theorem render_cons : render true cs = '/' :: ['/'].intercalate cs := rfl

@[simp] theorem isAbs_render (cs : List PathText) : isAbs (render true cs) = true := rfl

end Components

section Cleaning
variable {cs ds out : List PathText} {rooted : Bool}

theorem push_plain (plain : Plain c) : push rooted out c = out ++ [c] := by
  simp [push, plain.1, plain.2.1, plain.2.2.1]

theorem push_skipped (skipped : c = [] ∨ c = dot) : push rooted out c = out := by simp [push, skipped]

theorem foldl_push_plain (plain : ∀ c ∈ cs, Plain c) : cs.foldl (push rooted) out = out ++ cs := by
  induction cs generalizing out with
  | nil => simp
  | cons c cs ih =>
    rw [List.foldl_cons, push_plain (plain c List.mem_cons_self), ih fun d member => plain d (List.mem_cons_of_mem _ member)]
    simp

def kept (cs : List PathText) : List PathText := cs.filter fun c => c ≠ [] ∧ c ≠ dot

theorem plain_kept (clear : ∀ c ∈ cs, '/' ∉ c) (inside : dotdot ∉ cs) : ∀ c ∈ kept cs, Plain c := by
  intro c member
  obtain ⟨member, named⟩ := List.mem_filter.mp member
  have named := of_decide_eq_true named
  exact ⟨named.1, named.2, fun same => inside (same ▸ member), clear c member⟩

theorem foldl_push_inside (inside : dotdot ∉ cs) : cs.foldl (push rooted) out = out ++ kept cs := by
  induction cs generalizing out with
  | nil => simp [kept]
  | cons c cs ih =>
    obtain ⟨here, rest⟩ := not_or.mp (fun either => inside (List.mem_cons.mpr either))
    by_cases skipped : c = [] ∨ c = dot
    · rw [List.foldl_cons, push_skipped skipped, ih rest]
      rcases skipped with rfl | rfl <;> simp [kept]
    · have other : push rooted out c = out ++ [c] := by simp [push, skipped, Ne.symm here]
      obtain ⟨filled, named⟩ := not_or.mp skipped
      rw [List.foldl_cons, other, ih rest]
      simp [kept, filled, named]

theorem plain_foldl (clear : ∀ c ∈ cs, '/' ∉ c) (before : ∀ c ∈ out, Plain c) :
    ∀ c ∈ cs.foldl (push true) out, Plain c := by
  induction cs generalizing out with
  | nil => exact before
  | cons c cs ih =>
    apply ih fun d member => clear d (List.mem_cons_of_mem _ member)
    unfold push
    split
    · exact before
    · case isFalse named =>
      split
      · split
        · exact before
        · exact fun d member => before d ((List.dropLast_sublist _).mem member)
      · case isFalse forward =>
        intro d member
        rcases List.mem_append.mp member with member | member
        · exact before d member
        · rw [List.mem_singleton.mp member]
          obtain ⟨filled, named⟩ := not_or.mp named
          exact ⟨filled, named, forward, clear c List.mem_cons_self⟩

theorem plain_collapse (p : PathText) : ∀ c ∈ collapse true (components p), Plain c :=
  plain_foldl (fun _ => slash_not_mem) (by simp)

theorem components_render (clear : ∀ c ∈ cs, '/' ∉ c) (some : cs ≠ []) : components (render true cs) = [] :: cs := by
  rw [render_rooted some]
  simpa [components_nil] using components_lead [] clear

theorem collapse_render (plain : ∀ c ∈ cs, Plain c) : collapse true (components (render true cs)) = cs := by
  by_cases none : cs = []
  · rw [none]
    rfl
  · rw [components_render (fun c member => (plain c member).2.2.2) none, collapse, List.foldl_cons,
      push_skipped (Or.inl rfl), foldl_push_plain plain]
    rfl

theorem render_injective (plain : ∀ c ∈ cs, Plain c) (plain' : ∀ c ∈ ds, Plain c) (same : render true cs = render true ds) :
    cs = ds := by
  rw [← collapse_render plain, same, collapse_render plain']

theorem clean_rooted (p : PathText) (rooted : isAbs p = true) : clean p = render true (collapse true (components p)) := by
  simp [clean, rooted]

/-- An element that cleaning keeps: a name or a step to the parent. -/
def Element (c : PathText) : Prop := c ≠ [] ∧ c ≠ dot ∧ '/' ∉ c

theorem element_push (free : '/' ∉ c) (before : ∀ d ∈ out, Element d) : ∀ d ∈ push rooted out c, Element d := by
  have added : ∀ {x : PathText}, Element x → ∀ d ∈ out ++ [x], Element d := by
    intro x kept d member
    rcases List.mem_append.mp member with member | member
    · exact before d member
    · rwa [List.mem_singleton.mp member]
  unfold push
  split
  · exact before
  · case isFalse named =>
    split
    · split
      · split
        · exact before
        · exact added ⟨by decide, by decide, by decide⟩
      · exact fun d member => before d ((List.dropLast_sublist _).mem member)
    · exact added ⟨(not_or.mp named).1, (not_or.mp named).2, free⟩

theorem element_foldl (clear : ∀ c ∈ cs, '/' ∉ c) (before : ∀ d ∈ out, Element d) :
    ∀ d ∈ cs.foldl (push rooted) out, Element d := by
  induction cs generalizing out with
  | nil => exact before
  | cons c cs ih =>
    apply ih fun d member => clear d (List.mem_cons_of_mem _ member)
    exact element_push (clear c List.mem_cons_self) before

theorem push_stuck (stuck : out.getLast? = none ∨ out.getLast? = some dotdot) :
    push rooted out dotdot = if rooted then out else out ++ [dotdot] := by
  rw [push, if_neg (by decide), if_pos rfl, if_pos stuck]

theorem push_back (named : t ≠ dotdot) : push rooted (out ++ [t]) dotdot = out := by
  rw [push, if_neg (by decide), if_pos rfl, if_neg (by simpa using named), List.dropLast_concat]

/-- Reading a cleaned relative path onto a rooted one is reading it as it was written. -/
theorem foldl_relative (clear : ∀ c ∈ cs, '/' ∉ c) (before : ∀ d ∈ out, Element d) (onto : List PathText) :
    (cs.foldl (push false) out).foldl (push true) onto = cs.foldl (push true) (out.foldl (push true) onto) := by
  induction cs generalizing out with
  | nil => rfl
  | cons c cs ih =>
    have free := clear c List.mem_cons_self
    rw [List.foldl_cons, List.foldl_cons, ih (fun d member => clear d (List.mem_cons_of_mem _ member)) (element_push free before)]
    congr 1
    by_cases skipped : c = [] ∨ c = dot
    · rw [push_skipped skipped, push_skipped skipped]
    · by_cases back : c = dotdot
      · subst back
        by_cases stuck : out.getLast? = none ∨ out.getLast? = some dotdot
        · rw [push_stuck stuck, if_neg (by decide), List.foldl_append]
          rfl
        · obtain ⟨filled, named⟩ := not_or.mp stuck
          obtain ⟨t, last⟩ := Option.ne_none_iff_exists'.mp filled
          obtain ⟨rest, rfl⟩ := List.getLast?_eq_some_iff.mp last
          have named : t ≠ dotdot := fun same => named (same ▸ last)
          have top : Element t := before t (by simp)
          rw [push_back named, List.foldl_append, List.foldl_cons, List.foldl_nil,
            push_plain ⟨top.1, top.2.1, named, top.2.2⟩, push_back named]
      · simp [push, skipped, back, List.foldl_append]

end Cleaning

section Places
variable {cs ds : List PathText} {c cwd root p : PathText}

theorem render_concat (cs : List PathText) (c : PathText) : render true (cs ++ [c]) = lead cs ++ '/' :: c := by
  rw [render_rooted (by simp), lead_append]
  simp [lead]

theorem before_slash (free : '/' ∉ c) : ∀ x ∈ c.reverse, (!decide (x = '/')) = true := by
  intro x member
  have other : x ≠ '/' := by
    rintro rfl
    exact free (List.mem_reverse.mp member)
  simpa using other

theorem dir_render (plain : ∀ d ∈ cs, Plain d) (free : '/' ∉ c) : dir (render true (cs ++ [c])) = render true cs := by
  have parent : (render true (cs ++ [c])).rdropWhile (· ≠ '/') = lead cs ++ ['/'] := by
    simp [render_concat, List.rdropWhile, List.dropWhile_append_of_pos (before_slash free)]
  have rooted : isAbs (lead cs ++ ['/']) = true := by cases cs <;> rfl
  have split : components (lead cs ++ ['/']) = [[]] ++ cs ++ [[]] := by
    rw [components_append, components_nil]
    congr 1
    exact components_lead [] fun d member => (plain d member).2.2.2
  have kept : collapse true ([[]] ++ cs ++ [[]]) = cs := by
    simp [collapse, List.foldl_append, foldl_push_plain plain, push_skipped]
  rw [dir, parent, clean_rooted _ rooted, split, kept]

theorem base_render (cs : List PathText) (plain : Plain c) : base (render true (cs ++ [c])) = c := by
  have free := plain.2.2.2
  obtain ⟨init, last, whole⟩ := (List.eq_nil_or_concat c).resolve_left plain.1
  have stays : (lead cs ++ '/' :: c).rdropWhile (· = '/') = lead cs ++ '/' :: c := by
    have other : last ≠ '/' := fun same => free (by rw [whole, same]; simp)
    simp [List.rdropWhile, whole, other]
  have taken : (lead cs ++ '/' :: c).rtakeWhile (· ≠ '/') = c := by
    simp [List.rtakeWhile, List.takeWhile_append_of_pos (before_slash free)]
  rw [render_concat, base, if_neg (by simp), stays, taken]
  split
  · exact absurd rfl plain.1
  · rfl

theorem join_render (plain : ∀ c ∈ cs, Plain c) (below : ∀ c ∈ ds, Plain c) :
    join (render true cs :: ds) = render true (cs ++ ds) := by
  have text : ['/'].intercalate (render true cs :: ds) = render true cs ++ lead ds := intercalate_cons _ _
  have rooted : isAbs (render true cs ++ lead ds) = true := rfl
  have kept : collapse true (components (render true cs) ++ ds) = cs ++ ds := by
    have onto := collapse_render plain
    rw [collapse] at onto ⊢
    rw [List.foldl_append, onto, foldl_push_plain below]
  rw [join, List.dropWhile_cons_of_neg (by simp [render_cons])]
  simp only [text]
  rw [clean_rooted _ rooted, components_lead _ fun c member => (below c member).2.2.2, kept]

theorem isAbs_clean (p : PathText) : isAbs (clean p) = isAbs p := by
  cases rooted : isAbs p with
  | true => rw [clean_rooted p rooted, isAbs_render]
  | false =>
    have elements : ∀ c ∈ collapse false (components p), Element c :=
      element_foldl (fun _ => slash_not_mem) (by simp)
    simp only [clean, rooted, render, Bool.false_eq_true, if_false]
    split
    · rfl
    · cases cs : collapse false (components p) with
      | nil => rfl
      | cons c rest =>
        have first : Element c := elements c (by rw [cs]; exact List.mem_cons_self)
        rw [intercalate_cons]
        cases c with
        | nil => exact absurd rfl first.1
        | cons a c =>
          have other : a ≠ '/' := fun same => first.2.2 (by rw [same]; exact List.mem_cons_self)
          simp [isAbs, other]

theorem components_clean (relative : isAbs p = false) :
    components (clean p) = if collapse false (components p) = [] then [dot] else collapse false (components p) := by
  have elements : ∀ c ∈ collapse false (components p), Element c :=
    element_foldl (fun _ => slash_not_mem) (by simp)
  simp only [clean, relative, render, Bool.false_eq_true, if_false]
  split
  · rfl
  · case isFalse some => exact List.splitOn_intercalate '/' (fun c member => (elements c member).2.2) some

def locate (cwd p : PathText) : List PathText :=
  collapse true (if isAbs p then components p else components cwd ++ components p)

theorem plain_locate (cwd p : PathText) : ∀ c ∈ locate cwd p, Plain c := by
  apply plain_foldl _ (by simp)
  intro c member
  split at member
  · exact slash_not_mem member
  · rcases List.mem_append.mp member with member | member
    · exact slash_not_mem member
    · exact slash_not_mem member

theorem abs_eq (rooted : isAbs cwd = true) (p : PathText) : abs cwd p = render true (locate cwd p) := by
  unfold abs locate
  split
  · case isTrue given => exact clean_rooted p given
  · have filled : ¬ cwd = [] := by
      rintro rfl
      cases rooted
    have text : ['/'].intercalate [cwd, p] = cwd ++ '/' :: p := by simp
    have still : isAbs (cwd ++ '/' :: p) = true := by
      cases cwd with
      | nil => exact absurd rfl filled
      | cons a cwd => exact rooted
    rw [join, List.dropWhile_cons_of_neg (by simpa using filled)]
    simp only [text]
    rw [clean_rooted _ still, components_append]

theorem locate_clean (cwd p : PathText) : locate cwd (clean p) = locate cwd p := by
  unfold locate
  rw [isAbs_clean]
  cases rooted : isAbs p with
  | true =>
    rw [if_pos rfl, if_pos rfl, clean_rooted p rooted, collapse_render (plain_collapse p)]
  | false =>
    have clear : ∀ c ∈ components p, '/' ∉ c := fun _ => slash_not_mem
    have relative : ∀ onto, (collapse false (components p)).foldl (push true) onto = (components p).foldl (push true) onto :=
      fun onto => foldl_relative clear (by simp) onto
    have read : ∀ onto, (components (clean p)).foldl (push true) onto = (components p).foldl (push true) onto := by
      intro onto
      rw [← relative, components_clean rooted]
      split
      · case isTrue none =>
        rw [none]
        rfl
      · rfl
    rw [if_neg (by decide), if_neg (by decide), collapse, collapse, List.foldl_append, List.foldl_append, read]

theorem join_below (base : PathText) (plain : ∀ d ∈ cs, Plain d) (some : cs ≠ []) :
    join (base :: cs) = render (isAbs base) (collapse (isAbs base) (components base) ++ cs) := by
  have clear : ∀ d ∈ cs, '/' ∉ d := fun d member => (plain d member).2.2.2
  cases cs with
  | nil => exact absurd rfl some
  | cons c rest =>
    have named := plain c List.mem_cons_self
    cases base with
    | nil =>
      have relative : isAbs (c ++ lead rest) = false := by
        cases c with
        | nil => exact absurd rfl named.1
        | cons a c =>
          have other : a ≠ '/' := fun same => named.2.2.2 (by rw [same]; exact List.mem_cons_self)
          simp [isAbs, other]
      rw [join, List.dropWhile_cons_of_pos (by simp), List.dropWhile_cons_of_neg (by simpa using named.1)]
      simp only [intercalate_cons]
      rw [clean, relative, components_lead c fun d member => clear d (List.mem_cons_of_mem _ member),
        components_single named.2.2.2, List.singleton_append, collapse, foldl_push_plain plain]
      rfl
    | cons a base =>
      have same : isAbs (a :: base ++ lead (c :: rest)) = isAbs (a :: base) := rfl
      rw [join, List.dropWhile_cons_of_neg (by simp)]
      simp only [intercalate_cons]
      rw [clean, same, components_lead _ clear, collapse, List.foldl_append, foldl_push_plain plain]
      rfl

theorem join_injective (base : PathText) (plain : ∀ d ∈ cs, Plain d) (plain' : ∀ d ∈ ds, Plain d) (some : cs ≠ [])
    (some' : ds ≠ [])
    (same : join (base :: cs) = join (base :: ds)) : cs = ds := by
  rw [join_below base plain some, join_below base plain' some'] at same
  have elements : ∀ c ∈ collapse (isAbs base) (components base), Element c :=
    element_foldl (fun _ => slash_not_mem) (by simp)
  have split : ∀ es : List PathText, (∀ d ∈ es, Plain d) → es ≠ [] →
      components (['/'].intercalate (collapse (isAbs base) (components base) ++ es)) =
        collapse (isAbs base) (components base) ++ es := by
    intro es named filled
    apply List.splitOn_intercalate '/' _ (by simp [filled])
    intro c member
    exact (List.mem_append.mp member).elim (fun held => (elements c held).2.2) fun held => (named c held).2.2.2
  have text : ['/'].intercalate (collapse (isAbs base) (components base) ++ cs) =
      ['/'].intercalate (collapse (isAbs base) (components base) ++ ds) := by
    cases rooted : isAbs base with
    | true => simpa [render, rooted] using same
    | false => simpa [render, rooted, some, some'] using same
  have whole := congrArg components text
  rw [split cs plain some, split ds plain' some'] at whole
  exact List.append_cancel_left whole

/-- A path without a parent element, joined onto a root, lies below the root by its names. -/
theorem locate_join (filled : p ≠ []) (relative : isAbs p = false) (inside : dotdot ∉ components p) :
    locate cwd (join [root, p]) = locate cwd root ++ kept (components p) := by
  by_cases given : root = []
  · have text : join [root, p] = clean p := by
      rw [join, given, List.dropWhile_cons_of_pos (by simp), List.dropWhile_cons_of_neg (by simpa using filled)]
      simp
    rw [text, locate_clean, given, locate, locate, if_neg (by simp [relative]), if_neg (by decide), collapse, collapse,
      components_nil, List.foldl_append, List.foldl_append, foldl_push_inside inside]
    rfl
  · have text : join [root, p] = clean (root ++ '/' :: p) := by
      rw [join, List.dropWhile_cons_of_neg (by simpa using given)]
      simp
    have same : isAbs (root ++ '/' :: p) = isAbs root := by
      cases root with
      | nil => exact absurd rfl given
      | cons a root => rfl
    rw [text, locate_clean, locate, locate, same, components_append]
    split
    · rw [collapse, List.foldl_append, foldl_push_inside inside]
      rfl
    · rw [collapse, ← List.append_assoc, List.foldl_append, foldl_push_inside inside]
      rfl

end Places
end Hfdl.Filepath
