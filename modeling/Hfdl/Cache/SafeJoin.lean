import Hfdl.FileTree
import Mathlib.Data.List.Infix

/-! Joining a path that a repository supplies onto a destination root. The path is
checked as text, then both ends are resolved through the symbolic links of the
destination and the result must lie below the resolved root. -/
namespace Hfdl.Cache
open Filepath FileTree

inductive ResolveError where
  | stat (dir : PathText) (cause : Errno)
  | noAncestor (path : PathText)
  | resolve (dir : PathText) (cause : Errno)
  deriving DecidableEq

inductive JoinError where
  | pathSafety (path : PathText) (reason : String)
  | resolveRoot (root : PathText) (cause : ResolveError)
  | resolve (probe : PathText) (cause : ResolveError)
  deriving DecidableEq

def validateRepoPath (p : PathText) : Except JoinError Unit :=
  if p = [] then .error (.pathSafety p "empty path")
  else if isAbs p then .error (.pathSafety p "absolute path")
  else if '\\' ∈ p then .error (.pathSafety p "contains backslash path separator")
  else if dotdot ∈ components p then .error (.pathSafety p "contains \"..\" component")
  else .ok ()

/-- The deepest existing ancestor of a path and the names below it. The root always
exists, so a path is climbed at most once per name. -/
def ascend (t : Tree) (whole : PathText) : Nat → PathText → List PathText → Except ResolveError (PathText × List PathText)
  | 0, _, _ => .error (.noAncestor whole)
  | fuel + 1, place, tail =>
    match lstat t place with
    | .ok _ => .ok (place, tail)
    | .error .noent =>
      if dir place = place then .error (.noAncestor whole) else ascend t whole fuel (dir place) (base place :: tail)
    | .error e => .error (.stat place e)

def resolvePath (t : Tree) (cwd p : PathText) : Except ResolveError PathText :=
  match ascend t (abs cwd p) ((abs cwd p).length + 1) (abs cwd p) [] with
  | .error e => .error e
  | .ok (place, tail) =>
    match evalSymlinks t place with
    | .error e => .error (.resolve place e)
    | .ok resolved => .ok (if tail = [] then resolved else join (resolved :: tail))

def safeJoinWithin (t : Tree) (cwd root containmentRoot p : PathText) (resolveLeaf : Bool) : Except JoinError PathText :=
  match validateRepoPath p with
  | .error e => .error e
  | .ok () =>
    match resolvePath t cwd containmentRoot with
    | .error e => .error (.resolveRoot root e)
    | .ok resolvedRoot =>
      let joined := join [root, p]
      let probe := if resolveLeaf then joined else dir joined
      match resolvePath t cwd probe with
      | .error e => .error (.resolve probe e)
      | .ok resolved =>
        if resolved ≠ resolvedRoot ∧ ¬ (resolvedRoot ++ ['/']) <+: resolved then
          .error (.pathSafety p "escapes root via symlink")
        else .ok joined

/-- A snapshot directory's pointers may lead to the blobs of its repository. -/
def safeJoin (t : Tree) (cwd root p : PathText) : Except JoinError PathText :=
  let snapshots := dir root
  let containmentRoot := if base snapshots = "snapshots".toList then dir (dir snapshots) else root
  safeJoinWithin t cwd root containmentRoot p true

def safeJoinContent (t : Tree) (cwd root p : PathText) : Except JoinError PathText :=
  safeJoinWithin t cwd root root p true

structure Supplied (p : PathText) : Prop where
  filled : p ≠ []
  relative : isAbs p = false
  slashes : '\\' ∉ p
  inside : dotdot ∉ components p

theorem validateRepoPath_ok : validateRepoPath p = .ok () ↔ Supplied p := by
  unfold validateRepoPath
  split
  · case isTrue empty => exact ⟨fun never => (by cases never), fun supplied => absurd empty supplied.filled⟩
  · case isFalse filled =>
    split
    · case isTrue rooted => exact ⟨fun never => (by cases never), fun supplied => absurd rooted (by simp [supplied.relative])⟩
    · case isFalse relative =>
      split
      · case isTrue held => exact ⟨fun never => (by cases never), fun supplied => absurd held supplied.slashes⟩
      · case isFalse slashes =>
        split
        · case isTrue held => exact ⟨fun never => (by cases never), fun supplied => absurd held supplied.inside⟩
        · case isFalse inside => exact ⟨fun _ => ⟨filled, by simpa using relative, slashes, inside⟩, fun _ => rfl⟩

section Resolve
variable {t : Tree} {cs tail : List PathText} {cwd p : PathText} {fuel : Nat}

theorem dir_ne (plain : ∀ d ∈ cs, Plain d) (named : Plain c) : dir (render true (cs ++ [c])) ≠ render true (cs ++ [c]) := by
  rw [dir_render plain named.2.2.2]
  intro same
  have all : ∀ d ∈ cs ++ [c], Plain d := by
    intro d member
    rcases List.mem_append.mp member with member | member
    · exact plain d member
    · rwa [List.mem_singleton.mp member]
  have short := congrArg List.length (render_injective plain all same)
  simp at short

theorem ascend_ok (plain : ∀ c ∈ cs, Plain c) (found : ascend t whole fuel (render true cs) tail = .ok (place, rest)) :
    ∃ pre post node, cs = pre ++ post ∧ place = render true pre ∧ rest = post ++ tail ∧ lstat t place = .ok node ∧
      ∀ c ∈ post.head?, lstat t (render true (pre ++ [c])) = .error .noent := by
  induction fuel generalizing cs tail with
  | zero => cases found
  | succ fuel ih =>
    cases here : lstat t (render true cs) with
    | ok node =>
      simp only [ascend, here] at found
      cases found
      exact ⟨cs, [], node, by simp, rfl, rfl, here, by simp⟩
    | error e =>
      rcases List.eq_nil_or_concat cs with rfl | ⟨init, c, rfl⟩
      · rw [lstat_root] at here
        cases here
      · rw [List.concat_eq_append] at here plain found ⊢
        have above : ∀ d ∈ init, Plain d := fun d member => plain d (List.mem_append_left _ member)
        have named : Plain c := plain c (by simp)
        cases e with
        | noent =>
          simp only [ascend, here] at found
          rw [if_neg (dir_ne above named), dir_render above named.2.2.2, base_render init named] at found
          obtain ⟨pre, post, node, rfl, rfl, rfl, there, missing⟩ := ih above found
          refine ⟨pre, post ++ [c], node, by simp, rfl, by simp, there, ?_⟩
          cases post with
          | nil => simpa using here
          | cons d post => simpa using missing
        | notdir => simp [ascend, here] at found
        | loop => simp [ascend, here] at found
        | inval => simp [ascend, here] at found

theorem terminated_of_lstat (found : lstat t p = .ok node) : nul ∉ p := by
  intro held
  rw [lstat, if_pos held] at found
  cases found

theorem missing_of_lstat (plain : ∀ c ∈ cs, Plain c) (named : Plain c) (follows : Follows t links [] cs place)
    (absent : lstat t (render true (cs ++ [c])) = .error .noent) : lookup t place c = .error .noent := by
  by_cases held : nul ∈ render true (cs ++ [c])
  · rw [lstat, if_pos held] at absent
    cases absent
  · rw [lstat_render (fun d member => (plain d member).2.2.2) named held] at absent
    rcases walk_of_follows follows maxSymlinks with walked | ⟨_, looped⟩
    · rwa [walked] at absent
    · rw [looped] at absent
      cases absent

theorem resolvePath_ok (rooted : isAbs cwd = true) (resolved : resolvePath t cwd p = .ok text) :
    ∃ real, Resolves t (locate cwd p) real ∧ text = render true real ∧ ∀ c ∈ real, Plain c := by
  have plain := plain_locate cwd p
  rw [resolvePath, abs_eq rooted] at resolved
  split at resolved
  · cases resolved
  · case h_2 place rest found =>
    obtain ⟨pre, post, node, whole, rfl, rfl, here, missing⟩ := ascend_ok plain found
    rw [whole] at plain ⊢
    have above : ∀ c ∈ pre, Plain c := fun c member => plain c (List.mem_append_left _ member)
    have below : ∀ c ∈ post, Plain c := fun c member => plain c (List.mem_append_right _ member)
    split at resolved
    · cases resolved
    · case h_2 evaluated ok =>
      have terminated := terminated_render.mp (terminated_of_lstat here)
      obtain ⟨place, walked, rfl⟩ := (evalSymlinks_ok above terminated).mp ok
      have settled := plain_of_walk above terminated walked
      have follows := follows_of_walk walked
      refine ⟨place ++ post, ⟨_, pre, post, place, rfl, rfl, follows, ?_⟩, ?_, ?_⟩
      · intro c first
        exact missing_of_lstat above (below c (List.mem_of_mem_head? first)) follows (missing c first)
      · cases resolved
        rw [List.append_nil]
        split
        · case isTrue none => rw [none, List.append_nil]
        · exact join_render settled below
      · intro c member
        exact (List.mem_append.mp member).elim (settled c) (below c)

end Resolve

section Containment
variable {t : Tree} {cwd root containmentRoot p joined : PathText} {real realRoot : List PathText}

theorem contained_of_text (plain : ∀ c ∈ real, Plain c) (plainRoot : ∀ c ∈ realRoot, Plain c)
    (inside : ¬ (render true real ≠ render true realRoot ∧ ¬ (render true realRoot ++ ['/']) <+: render true real)) :
    realRoot <+: real := by
  by_cases same : render true real = render true realRoot
  · obtain rfl := render_injective plain plainRoot same
    exact List.prefix_rfl
  · obtain ⟨rest, text⟩ : (render true realRoot ++ ['/']) <+: render true real := by tauto
    by_cases top : realRoot = []
    · rw [top]
      exact List.nil_prefix
    · have some : real ≠ [] := by
        rintro rfl
        obtain ⟨c, cs, rfl⟩ := List.exists_cons_of_ne_nil top
        rw [render_rooted top] at text
        have long := congrArg List.length text
        simp only [lead, List.flatMap_cons, List.length_append, List.length_cons, render, if_true, List.intercalate_nil,
          List.length_nil] at long
        omega
      have split := congrArg components text
      rw [List.append_assoc, List.singleton_append, components_append,
        components_render (fun c member => (plainRoot c member).2.2.2) top,
        components_render (fun c member => (plain c member).2.2.2) some, List.cons_append] at split
      exact ⟨_, (List.cons_eq_cons.mp split).2⟩

theorem text_of_contained (some : realRoot ≠ []) (whole : real = realRoot ++ rest)
    (other : render true real ≠ render true realRoot) :
    (render true realRoot ++ ['/']) <+: render true real := by
  cases rest with
  | nil =>
    rw [whole, List.append_nil] at other
    exact absurd rfl other
  | cons c rest =>
    rw [whole, render_rooted some, render_rooted (by simp), lead_append]
    exact ⟨c ++ lead rest, by simp [lead]⟩

theorem text_slash (plain : ∀ c ∈ real, Plain c)
    (inside : ¬ (render true real ≠ render true [] ∧ ¬ (render true [] ++ ['/']) <+: render true real)) : real = [] := by
  cases real with
  | nil => rfl
  | cons c real =>
    obtain ⟨filled, -, -, clear⟩ := plain c List.mem_cons_self
    obtain ⟨d, name, rfl⟩ := List.exists_cons_of_ne_nil filled
    refine absurd ⟨fun same => ?_, fun within => ?_⟩ inside
    · exact absurd (render_injective plain (by simp) same) (List.cons_ne_nil _ _)
    · rw [render_rooted (List.cons_ne_nil _ _)] at within
      have second := (List.cons_prefix_cons.mp (List.cons_prefix_cons.mp within).2).1
      exact clear (second ▸ List.mem_cons_self)

/-- A path that is accepted stays at or below the containment root, all links followed. -/
theorem safeJoinWithin_contained (rooted : isAbs cwd = true)
    (accepted : safeJoinWithin t cwd root containmentRoot p true = .ok joined) :
    joined = join [root, p] ∧ ∃ realRoot real, Resolves t (locate cwd containmentRoot) realRoot ∧
      Resolves t (locate cwd joined) real ∧ realRoot <+: real := by
  unfold safeJoinWithin at accepted
  split at accepted
  · cases accepted
  · split at accepted
    · cases accepted
    · case h_2 resolvedRoot rootOk =>
      simp only [if_true] at accepted
      split at accepted
      · cases accepted
      · case h_2 resolved ok =>
        split at accepted
        · cases accepted
        · case isFalse inside =>
          cases accepted
          obtain ⟨realRoot, there, rfl, plainRoot⟩ := resolvePath_ok rooted rootOk
          obtain ⟨real, here, rfl, plain⟩ := resolvePath_ok rooted ok
          exact ⟨rfl, realRoot, real, there, here, contained_of_text plain plainRoot inside⟩

/-- The target of a snapshot's pointer stays at or below its repository's directory, any
other target at or below its root. -/
theorem safeJoin_contained (rooted : isAbs cwd = true) (accepted : safeJoin t cwd root p = .ok joined) :
    ∃ realRoot real, Resolves t (locate cwd joined) real ∧ realRoot <+: real ∧
      Resolves t (locate cwd (if base (dir root) = "snapshots".toList then dir (dir (dir root)) else root)) realRoot := by
  obtain ⟨_, realRoot, real, there, here, within⟩ := safeJoinWithin_contained rooted accepted
  exact ⟨realRoot, real, here, within, there⟩

end Containment
/-- No symbolic link stands at a path or below it. -/
def LinkFree (t : Tree) (cs : List PathText) : Prop :=
  ∀ below, (∀ c ∈ below, Plain c) → ∀ target ends, lstat t (render true (cs ++ below)) ≠ .ok (.link target ends)

/-- Every proper prefix of a path that exists is a directory. -/
def ThroughDirectories (t : Tree) (cs : List PathText) : Prop :=
  ∀ pre, pre <+: cs → pre ≠ cs → ∀ node, lstat t (render true pre) = .ok node → StatsDir t (render true pre)

section Completeness
variable {t : Tree} {cs pre : List PathText} {c cwd root p : PathText}

theorem StatsDir.walked (clear : ∀ c ∈ cs, '/' ∉ c) (directory : StatsDir t (render true cs)) :
    ∃ place entries, walk t maxSymlinks [] cs = .ok place ∧ t.entry place = some (.dir entries) := by
  obtain ⟨_, place, entries, walked, here⟩ := directory
  rw [walk, traverse_render _ _ clear] at walked
  exact ⟨place, entries, walked, here⟩

theorem walk_of_absent (plain : ∀ c ∈ cs, Plain c) (absent : lstat t (render true cs) = .error .noent) :
    walk t maxSymlinks [] cs = .error .noent := by
  rcases List.eq_nil_or_concat cs with rfl | ⟨init, c, rfl⟩
  · rw [lstat_root] at absent
    cases absent
  · rw [List.concat_eq_append] at absent plain ⊢
    have named : Plain c := plain c (by simp)
    apply walk_missing named
    by_cases held : nul ∈ render true (init ++ [c])
    · rw [lstat, if_pos held] at absent
      cases absent
    · rwa [lstat_render (fun d member => (plain d (List.mem_append_left _ member)).2.2.2) named held] at absent

theorem lookup_directory (here : t.entry place = some (.dir entries)) :
    (∃ node, lookup t place c = .ok node) ∨ lookup t place c = .error .noent := by
  simp only [lookup, here]
  cases (Node.dir entries).child c with
  | none => exact Or.inr rfl
  | some node => exact Or.inl ⟨node, rfl⟩

variable (plain : ∀ c ∈ cs, Plain c) (terminated : ∀ c ∈ cs, nul ∉ c) (through : ThroughDirectories t cs)
include plain terminated through

/-- Through directories a path exists or does not; nothing else goes wrong. -/
theorem lstat_prefix (within : pre <+: cs) :
    (∃ node, lstat t (render true pre) = .ok node) ∨ lstat t (render true pre) = .error .noent := by
  induction pre using List.reverseRecOn with
  | nil => exact Or.inl ⟨t.root, lstat_root⟩
  | append_singleton init c ih =>
    have all : ∀ d ∈ init ++ [c], d ∈ cs := fun d member => within.mem member
    have clear : ∀ d ∈ init, '/' ∉ d := fun d member => (plain d (all d (List.mem_append_left _ member))).2.2.2
    rw [lstat_render clear (plain c (all c (by simp))) (terminated_render.mpr fun d member => terminated d (all d member))]
    have before : init <+: cs := (List.prefix_append init [c]).trans within
    rcases ih before with ⟨node, here⟩ | absent
    · have proper : init ≠ cs := by
        rintro rfl
        have short := within.length_le
        rw [List.length_append, List.length_singleton] at short
        omega
      obtain ⟨place, entries, walked, directory⟩ := StatsDir.walked clear (through init before proper node here)
      rw [walked]
      exact lookup_directory directory
    · rw [walk_of_absent (fun d member => plain d (all d (List.mem_append_left _ member))) absent]
      exact Or.inr rfl

theorem ascend_total (fits : pre.length < fuel) (within : pre <+: cs) (whole : PathText) (tail : List PathText) :
    ∃ found, ascend t whole fuel (render true pre) tail = .ok found := by
  induction fuel generalizing pre tail with
  | zero => exact absurd fits (Nat.not_lt_zero _)
  | succ fuel ih =>
    rcases lstat_prefix plain terminated through within with ⟨node, here⟩ | absent
    · exact ⟨(render true pre, tail), by simp [ascend, here]⟩
    · rcases List.eq_nil_or_concat pre with rfl | ⟨init, c, rfl⟩
      · rw [lstat_root] at absent
        cases absent
      · rw [List.concat_eq_append] at absent fits within ⊢
        have all : ∀ d ∈ init ++ [c], Plain d := fun d member => plain d (within.mem member)
        have above : ∀ d ∈ init, Plain d := fun d member => all d (List.mem_append_left _ member)
        have named : Plain c := all c (by simp)
        rw [List.length_append, List.length_singleton] at fits
        obtain ⟨found, ok⟩ := ih (by omega) ((List.prefix_append init [c]).trans within) (c :: tail)
        refine ⟨found, ?_⟩
        simp only [ascend, absent]
        rw [if_neg (dir_ne above named), dir_render above named.2.2.2, base_render init named, ok]

theorem walk_existing (last : ∀ target ends, lstat t (render true cs) ≠ .ok (.link target ends)) (within : pre <+: cs)
    (here : lstat t (render true pre) = .ok node) : ∃ place, walk t maxSymlinks [] pre = .ok place := by
  by_cases whole : pre = cs
  · subst whole
    rcases List.eq_nil_or_concat pre with rfl | ⟨init, c, rfl⟩
    · exact ⟨[], traverse_nil⟩
    · rw [List.concat_eq_append] at *
      have named : Plain c := plain c (by simp)
      have clear : ∀ d ∈ init, '/' ∉ d := fun d member => (plain d (List.mem_append_left _ member)).2.2.2
      have split := lstat_render (t := t) clear named (terminated_render.mpr terminated)
      rw [here] at last
      rw [split] at here
      cases walked : walk t maxSymlinks [] init with
      | error e =>
        rw [walked] at here
        cases here
      | ok place =>
        rw [walked] at here
        have found : lookup t place c = .ok node := here
        obtain ⟨entries, directory, _⟩ := lookup_ok.mp found
        have skipped : ¬ (c = [] ∨ c = dot) := by simp [named.1, named.2.1]
        have step : Follows t 0 place [c] (place ++ [c]) := by
          cases node with
          | file => exact .file skipped named.2.2.1 found
          | dir below => exact .enter skipped named.2.2.1 found .done
          | link target ends => exact absurd rfl (last target ends)
        have follows := (follows_of_walk walked).append step directory
        exact ⟨_, (walk_of_follows follows maxSymlinks).resolve_right fun few => Nat.lt_irrefl _ few.1⟩
  · obtain ⟨place, _, walked, _⟩ := StatsDir.walked (fun d member => (plain d (within.mem member)).2.2.2)
      (through pre within whole node here)
    exact ⟨place, walked⟩

theorem resolvePath_total (rooted : isAbs cwd = true)
    (last : ∀ target ends, lstat t (render true cs) ≠ .ok (.link target ends)) (within : locate cwd p <+: cs) :
    ∃ text, resolvePath t cwd p = .ok text := by
  have fits : (locate cwd p).length < (render true (locate cwd p)).length + 1 := by
    have long : ∀ ds : List PathText, ds.length ≤ (lead ds).length := by
      intro ds
      induction ds with
      | nil => exact Nat.le_refl _
      | cons d ds ih =>
        simp only [lead, List.flatMap_cons, List.length_cons, List.length_append] at ih ⊢
        omega
    by_cases none : locate cwd p = []
    · simp [none]
    · rw [render_rooted none]
      exact Nat.lt_succ_of_le (long _)
  obtain ⟨⟨place, tail⟩, found⟩ := ascend_total plain terminated through fits within (render true (locate cwd p)) []
  obtain ⟨pre, post, node, whole, rfl, _, here, _⟩ := ascend_ok (fun c member => plain c (within.mem member)) found
  have before : pre <+: cs := (List.prefix_append pre post).trans (whole ▸ within)
  obtain ⟨place, walked⟩ := walk_existing plain terminated through last before here
  have follows : Follows t maxLinksWalked [] pre place := (follows_of_walk walked).mono (by decide)
  have further : walk t maxLinksWalked [] pre = .ok place :=
    (walk_of_follows follows maxLinksWalked).resolve_right fun few => Nat.lt_irrefl _ few.1
  have evaluated : evalSymlinks t (render true pre) = .ok (render true place) :=
    (evalSymlinks_ok (fun c member => plain c (before.mem member)) (fun c member => terminated c (before.mem member))).mpr
      ⟨place, further, rfl⟩
  refine ⟨if tail = [] then render true place else join (render true place :: tail), ?_⟩
  rw [resolvePath, abs_eq rooted, found]
  simp only [evaluated]

theorem walk_proper (follows : Follows t links [] pre place) (within : pre <+: cs) (proper : pre ≠ cs) :
    walk t maxSymlinks [] pre = .ok place ∧ ∃ entries, t.entry place = some (.dir entries) := by
  have all : ∀ c ∈ pre, Plain c := fun c member => plain c (within.mem member)
  rcases lstat_prefix plain terminated through within with ⟨node, here⟩ | absent
  · obtain ⟨place', entries, walked, directory⟩ := StatsDir.walked (fun d member => (all d member).2.2.2)
      (through pre within proper node here)
    obtain rfl := follows_unique follows (follows_of_walk walked)
    exact ⟨walked, entries, directory⟩
  · have missing := walk_of_absent all absent
    rcases walk_of_follows follows maxSymlinks with walked | ⟨_, looped⟩
    · rw [walked] at missing
      cases missing
    · rw [looped] at missing
      cases missing

theorem lstat_below (follows : Follows t links [] pre place) (within : pre ++ [c] <+: cs) :
    lstat t (render true (pre ++ [c])) = lookup t place c := by
  have all : ∀ d ∈ pre ++ [c], d ∈ cs := fun d member => within.mem member
  have before : pre <+: cs := (List.prefix_append pre [c]).trans within
  have proper : pre ≠ cs := by
    intro same
    have short := within.length_le
    rw [same, List.length_append, List.length_singleton] at short
    omega
  rw [lstat_render (fun d member => (plain d (all d (List.mem_append_left _ member))).2.2.2) (plain c (all c (by simp)))
    (terminated_render.mpr fun d member => terminated d (all d member)),
    (walk_proper plain terminated through follows before proper).1]
  rfl

theorem resolves_below (free : LinkFree t top) (under : top <+: pre) (follows : Follows t links [] pre place)
    (whole : pre ++ rest = cs) : Resolves t cs (place ++ rest) := by
  induction rest generalizing pre place links with
  | nil => exact ⟨links, pre, [], place, whole.symm, rfl, follows, by simp⟩
  | cons c rest ih =>
    have within : pre ++ [c] <+: cs := ⟨rest, by simpa using whole⟩
    have named : Plain c := plain c (within.mem (by simp))
    have skipped : ¬ (c = [] ∨ c = dot) := by simp [named.1, named.2.1]
    have onward : ∀ m, Follows t m place [c] (place ++ [c]) → Resolves t cs (place ++ c :: rest) := by
      intro m step
      have proper : pre ≠ cs := by
        rintro rfl
        simp at whole
      obtain ⟨_, entries, directory⟩ := walk_proper plain terminated through follows
        ((List.prefix_append pre [c]).trans within) proper
      have further := ih (under.trans (List.prefix_append pre [c])) (follows.append step directory) (by simpa using whole)
      simpa using further
    cases found : lookup t place c with
    | error e =>
      refine ⟨links, pre, c :: rest, place, whole.symm, rfl, follows, ?_⟩
      intro d first
      cases first
      rcases lstat_prefix plain terminated through within with ⟨node, here⟩ | absent
      · rw [lstat_below plain terminated through follows within, found] at here
        cases here
      · rwa [lstat_below plain terminated through follows within] at absent
    | ok node =>
      cases node with
      | dir entries => exact onward 0 (.enter skipped named.2.2.1 found .done)
      | file => exact onward 0 (.file skipped named.2.2.1 found)
      | link target ends =>
        obtain ⟨between, rfl⟩ := under
        have here := lstat_below plain terminated through follows within
        rw [found, List.append_assoc] at here
        refine absurd here (free _ ?_ target ends)
        intro d member
        exact plain d (within.mem (by rw [List.append_assoc]; exact List.mem_append_right _ member))

theorem resolves_join (free : LinkFree t top) (resolved : Resolves t top real) (whole : cs = top ++ rest) :
    Resolves t cs (real ++ rest) := by
  obtain ⟨links, pre, tail, place, rfl, rfl, follows, missing⟩ := resolved
  cases tail with
  | nil =>
    rw [List.append_nil] at *
    exact resolves_below plain terminated through free List.prefix_rfl follows whole.symm
  | cons c tail => exact ⟨links, pre, c :: tail ++ rest, place, by simp [whole], by simp, follows, by simpa using missing⟩

theorem resolved_root_ne (free : LinkFree t top) (below : top ≠ []) (within : top <+: cs) (resolved : Resolves t top real) :
    real ≠ [] := by
  obtain ⟨links, pre, tail, place, rfl, rfl, follows, _⟩ := resolved
  cases tail with
  | cons c tail => simp
  | nil =>
    rw [List.append_nil] at *
    rcases List.eq_nil_or_concat pre with rfl | ⟨init, c, rfl⟩
    · exact absurd rfl below
    · rw [List.concat_eq_append] at *
      have named : Plain c := plain c (within.mem (by simp))
      obtain ⟨mid, first, last⟩ := follows.split init [c] rfl (by simp)
      cases last with
      | skip skipped => exact absurd skipped (by simp [named.1, named.2.1])
      | up => exact absurd rfl named.2.2.1
      | enter _ _ _ rest =>
        cases rest
        simp
      | file => simp
      | link _ _ found _ =>
        have here := lstat_below plain terminated through first within
        rw [found, ← List.append_nil (init ++ [c])] at here
        exact absurd here (free [] (by simp) _ _)

end Completeness

theorem lstat_entry {t : Tree} (found : lstat t p = .ok node) : ∃ place, t.entry place = some node := by
  unfold lstat at found
  split at found
  · cases found
  · split at found
    · cases found
    · case h_2 place _ =>
      unfold final at found
      split at found
      · case h_1 entries here =>
        split at found
        · cases found
          exact ⟨place, here⟩
        · split at found
          · split at found
            · case h_1 parent =>
              cases found
              exact ⟨_, parent⟩
            · cases found
          · obtain ⟨_, _, there⟩ := lookup_ok.mp found
            exact ⟨_, there⟩
      · cases found

theorem linkFree_of_entries {t : Tree} (none : ∀ place target ends, t.entry place ≠ some (.link target ends))
    (cs : List PathText) :
    LinkFree t cs := by
  intro below _ target ends found
  obtain ⟨place, here⟩ := lstat_entry found
  exact none place target ends here

def single (name : PathText) : Tree := ⟨[(name, .dir [])]⟩

theorem single_entry (name : PathText) (found : (single name).entry place = some node) :
    node = (single name).root ∨ node = .dir [] := by
  induction place using List.reverseRecOn generalizing node with
  | nil =>
    cases found
    exact Or.inl rfl
  | append_singleton init c ih =>
    rw [entry_concat] at found
    obtain ⟨above, held, inside⟩ := Option.bind_eq_some_iff.mp found
    rcases ih held with rfl | rfl
    · obtain ⟨entry, listed, rfl⟩ := Option.map_eq_some_iff.mp inside
      have only : entry = (name, .dir []) := by simpa [single] using List.mem_of_find?_eq_some listed
      exact Or.inr (by rw [only])
    · cases inside

theorem single_linkFree (name : PathText) (cs : List PathText) : LinkFree (single name) cs := by
  apply linkFree_of_entries
  intro place target ends found
  rcases single_entry name found with never | never <;> cases never

section Exact
variable {t : Tree} {cwd root p : PathText} (rooted : isAbs cwd = true)
include rooted

theorem abs_eq_slash (p : PathText) : abs cwd p = ['/'] ↔ locate cwd p = [] := by
  rw [abs_eq rooted]
  exact ⟨fun same => render_injective (plain_locate cwd p) (by simp) (same.trans (show ['/'] = render true [] from rfl)),
    fun same => by rw [same]; rfl⟩

variable (supplied : Supplied p) (free : LinkFree t (locate cwd root))
  (through : ThroughDirectories t (locate cwd (join [root, p])))
include supplied free through

theorem resolved_ends (whole : nul ∉ abs cwd (join [root, p])) :
    ∃ realRoot, resolvePath t cwd root = .ok (render true realRoot) ∧
      resolvePath t cwd (join [root, p]) = .ok (render true (realRoot ++ kept (components p))) ∧
      (∀ c ∈ realRoot ++ kept (components p), Plain c) ∧ (realRoot = [] ↔ abs cwd root = ['/']) := by
  have names : locate cwd (join [root, p]) = locate cwd root ++ kept (components p) :=
    locate_join supplied.filled supplied.relative supplied.inside
  have plain := plain_locate cwd (join [root, p])
  have terminated : ∀ c ∈ locate cwd (join [root, p]), nul ∉ c := by
    rwa [← terminated_render, ← abs_eq rooted]
  have last : ∀ target ends, lstat t (render true (locate cwd (join [root, p]))) ≠ .ok (.link target ends) := by
    rw [names]
    exact free _ (plain_kept (fun _ => slash_not_mem) supplied.inside)
  have top : locate cwd root <+: locate cwd (join [root, p]) := ⟨_, names.symm⟩
  obtain ⟨rootText, rootOk⟩ := resolvePath_total plain terminated through rooted last top
  obtain ⟨text, ok⟩ := resolvePath_total plain terminated through rooted last List.prefix_rfl
  obtain ⟨realRoot, there, rfl, _⟩ := resolvePath_ok rooted rootOk
  obtain ⟨real, here, rfl, plainReal⟩ := resolvePath_ok rooted ok
  obtain rfl : real = realRoot ++ kept (components p) :=
    resolves_unique plain here (resolves_join plain terminated through free there names)
  refine ⟨realRoot, rootOk, ok, plainReal, ?_⟩
  rw [abs_eq_slash rooted]
  constructor
  · intro same
    by_contra inner
    exact resolved_root_ne plain terminated through free inner top there same
  · intro same
    rw [same] at there
    exact resolves_unique (by simp) there ⟨0, [], [], [], rfl, rfl, .done, by simp⟩

/-- A supplied path is accepted exactly if it holds no NUL and, below the root `/`, is that root itself. -/
theorem accepted_iff : (∃ joined, safeJoinContent t cwd root p = .ok joined) ↔
    nul ∉ abs cwd (join [root, p]) ∧ (abs cwd root = ['/'] → abs cwd (join [root, p]) = ['/']) := by
  by_cases whole : nul ∈ abs cwd (join [root, p])
  · refine iff_of_false ?_ fun free => free.1 whole
    rintro ⟨joined, accepted⟩
    have refused : resolvePath t cwd (join [root, p]) = .error (.stat (abs cwd (join [root, p])) .inval) := by
      have inval : lstat t (abs cwd (join [root, p])) = .error .inval := by rw [lstat, if_pos whole]
      simp only [resolvePath, ascend, inval]
    simp only [safeJoinContent, safeJoinWithin, if_true, refused] at accepted
    split at accepted
    · cases accepted
    · split at accepted <;> cases accepted
  · obtain ⟨realRoot, rootOk, ok, plain, slash⟩ := resolved_ends rooted supplied free through whole
    have names : locate cwd (join [root, p]) = locate cwd root ++ kept (components p) :=
      locate_join supplied.filled supplied.relative supplied.inside
    simp only [safeJoinContent, safeJoinWithin, validateRepoPath_ok.mpr supplied, rootOk, if_true, ok, whole,
      not_false_eq_true, true_and]
    rw [abs_eq_slash rooted (join [root, p]), names]
    constructor
    · rintro ⟨joined, accepted⟩ top
      split at accepted
      · cases accepted
      · rename_i inside
        rw [(abs_eq_slash rooted root).mp top, List.nil_append]
        rw [slash.mpr top, List.nil_append] at inside plain
        exact text_slash plain inside
    · intro stays
      refine ⟨join [root, p], if_neg (not_and_not_right.mpr fun other => ?_)⟩
      by_cases top : realRoot = []
      · have none_ := (List.append_eq_nil_iff.mp (stays (slash.mp top))).2
        rw [none_, List.append_nil] at other
        exact absurd rfl other
      · exact text_of_contained top rfl other

end Exact

/-- A content write is accepted only where it stays at or below its root with every link
followed. Without links and through directories, exactly the paths that a repository may supply are accepted
unless one holds a NUL or goes below the root `/`. -/
theorem safeJoinContent_exact (t : Tree) (cwd : PathText) (rooted : isAbs cwd = true) (root p : PathText) :
    (∀ joined, safeJoinContent t cwd root p = .ok joined →
      joined = join [root, p] ∧ ∃ realRoot real, Resolves t (locate cwd root) realRoot ∧
        Resolves t (locate cwd joined) real ∧ realRoot <+: real) ∧
    (LinkFree t (locate cwd root) → ThroughDirectories t (locate cwd (join [root, p])) →
      (((∃ joined, safeJoinContent t cwd root p = .ok joined) ↔ Supplied p) ↔
        ¬ Supplied p ∨ nul ∉ abs cwd (join [root, p]) ∧ (abs cwd root = ['/'] → abs cwd (join [root, p]) = ['/']))) := by
  refine ⟨fun joined accepted => safeJoinWithin_contained rooted accepted, fun free through => ?_⟩
  by_cases supplied : Supplied p
  · rw [accepted_iff rooted supplied free through]
    simp only [supplied, iff_true, not_true_eq_false, false_or]
  · have refused : ¬ ∃ joined, safeJoinContent t cwd root p = .ok joined := by
      rintro ⟨joined, accepted⟩
      unfold safeJoinContent safeJoinWithin at accepted
      split at accepted
      · cases accepted
      · case h_2 valid => exact supplied (validateRepoPath_ok.mp valid)
    simp only [supplied, refused, not_false_eq_true, true_or]

/-- In the tree of one directory `r` the path `a/b` is accepted below it. -/
theorem safeJoinContent_exact_nested :
    isAbs ['/'] = true ∧ abs ['/'] "/r".toList ≠ ['/'] ∧
      (∃ joined, safeJoinContent (single ['r']) ['/'] "/r".toList "a/b".toList = .ok joined) := by
  have through : ThroughDirectories (single ['r']) (locate ['/'] (join ["/r".toList, "a/b".toList])) := by
    intro pre within proper node here
    have listed : pre ∈ [[], [['r']], [['r'], ['a']], [['r'], ['a'], ['b']]] := (List.mem_inits _ _).mpr within
    simp only [List.mem_cons, List.not_mem_nil, or_false] at listed
    rcases listed with rfl | rfl | rfl | rfl
    · exact ⟨by decide, [], _, rfl, rfl⟩
    · exact ⟨by decide, [['r']], [], rfl, rfl⟩
    · cases here
    · exact absurd rfl proper
  refine ⟨rfl, by decide, ?_⟩
  exact (((safeJoinContent_exact (single ['r']) ['/'] rfl "/r".toList "a/b".toList).2 (single_linkFree _ _) through).mpr
    (.inr (by decide))).mpr ⟨by decide, by decide, by decide, by decide⟩

/-- Below the root `/` a path that a repository may supply is refused as if it escaped. -/
theorem slash_root_refuses :
    LinkFree (single ['r']) (locate ['/'] ['/']) ∧ ThroughDirectories (single ['r']) (locate ['/'] (join [['/'], ['a']])) ∧
      Supplied ['a'] ∧
      safeJoinContent (single ['r']) ['/'] ['/'] ['a'] = .error (.pathSafety ['a'] "escapes root via symlink") := by
  refine ⟨single_linkFree _ _, ?_, ⟨by decide, by decide, by decide, by decide⟩, by decide⟩
  intro pre within proper node _
  have listed : pre ∈ [[], [['a']]] := (List.mem_inits _ _).mpr within
  simp only [List.mem_cons, List.not_mem_nil, or_false] at listed
  rcases listed with rfl | rfl
  · exact ⟨by decide, [], _, rfl, rfl⟩
  · exact absurd rfl proper

end Hfdl.Cache
