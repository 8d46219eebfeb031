import Mathlib.Data.List.Basic

/-! A regular file behind a volatile page cache: the bytes it reads as now, and the
bytes that a power loss leaves. The files created under a path are numbered, and the path
names at most one of them. -/
namespace Hfdl

structure Links (κ ι : Type) where
  links : κ → Option Nat
  inodes : κ → Nat → ι
  created : κ → Nat

namespace Links
variable {κ ι : Type} [DecidableEq κ] {l : Links κ ι}

def modify (l : Links κ ι) (path : κ) (number : Nat) (change : ι → ι) : Links κ ι :=
  { l with inodes := Function.update l.inodes path (Function.update (l.inodes path) number (change (l.inodes path number))) }

/-- Opening a path creates an absent file. -/
def openPath (l : Links κ ι) (path : κ) (empty : ι) : Links κ ι × Nat :=
  match l.links path with
  | some number => (l, number)
  | none =>
    ({ l with links := Function.update l.links path (some (l.created path))
              created := Function.update l.created path (l.created path + 1) }.modify path (l.created path) fun _ => empty,
      l.created path)

theorem modify_self : (l.modify path number change).inodes path number = change (l.inodes path number) := by
  simp only [modify, Function.update_self]

theorem modify_other (apart : path' ≠ path ∨ number' ≠ number) :
    (l.modify path number change).inodes path' number' = l.inodes path' number' := by
  simp only [modify]
  by_cases same : path' = path
  · subst same
    rw [Function.update_self, Function.update_of_ne (apart.resolve_left fun differ => differ rfl)]
  · rw [Function.update_of_ne same]

theorem links_openPath : (l.openPath path empty).1.links path = some (l.openPath path empty).2 := by
  simp only [openPath]
  split
  · assumption
  · exact Function.update_self ..

theorem openPath_kept (linked : l.links path' = some number) :
    (l.openPath path empty).1.links path' = some number ∧
      (l.openPath path empty).1.inodes path' number = l.inodes path' number := by
  simp only [openPath]
  split
  · exact ⟨linked, rfl⟩
  · rename_i absent
    have apart : path' ≠ path := by
      rintro rfl
      cases absent.symm.trans linked
    refine ⟨(Function.update_of_ne apart ..).trans linked, ?_⟩
    simp only
    rw [modify_other (.inl apart)]

end Links

/-- Offsets past the end hold no byte. -/
structure Inode where
  current : Int → Option UInt8
  durable : Int → Option UInt8

namespace Inode
variable {i : Inode}

def empty : Inode := ⟨fun _ => none, fun _ => none⟩

/-- Allocation up to a size keeps what is there; new offsets read as zero. -/
def extend (i : Inode) (size : Int) : Inode :=
  { i with current := fun x => i.current x <|> if 0 ≤ x ∧ x < size then some 0 else none }

def write (i : Inode) (off : Int) (bytes : List UInt8) : Inode :=
  { i with current := fun x => if off ≤ x ∧ x < off + bytes.length then bytes[(x - off).toNat]? else i.current x }

def sync (i : Inode) : Inode := { i with durable := i.current }

/-- The kernel may write back any part of the cache at any time. -/
def flush (i : Inode) (picked : Int → Bool) : Inode :=
  { i with durable := fun x => if picked x then i.current x else i.durable x }

def lose (i : Inode) : Inode := { i with current := i.durable }

def Shows (i : Inode) (x : Int) (v : UInt8) : Prop := i.current x = some v
deriving Decidable

/-- The byte is there now and after a power loss. -/
def Keeps (i : Inode) (x : Int) (v : UInt8) : Prop := i.Shows x v ∧ i.durable x = some v
deriving Decidable

theorem Shows.extend (shown : i.Shows x v) : (i.extend size).Shows x v := by
  simp only [Shows, Inode.extend] at shown ⊢
  rw [shown]
  rfl

theorem Shows.write (shown : i.Shows x v) (same : off ≤ x → x < off + bytes.length → bytes[(x - off).toNat]? = some v) :
    (i.write off bytes).Shows x v := by
  simp only [Shows, Inode.write] at shown ⊢
  split
  · rename_i inside
    exact same inside.1 inside.2
  · exact shown

theorem shows_write_of_mem {off x : Int} {bytes : List UInt8} (left : off ≤ x) (right : x < off + bytes.length)
    (byte : bytes[(x - off).toNat]? = some v) :
    (i.write off bytes).Shows x v := by
  simp only [Shows, Inode.write]
  rw [if_pos ⟨left, right⟩]
  exact byte

theorem Shows.sync (shown : i.Shows x v) : i.sync.Keeps x v := ⟨shown, shown⟩

theorem Keeps.extend (kept : i.Keeps x v) : (i.extend size).Keeps x v := ⟨kept.1.extend, kept.2⟩

theorem Keeps.write (kept : i.Keeps x v) (same : off ≤ x → x < off + bytes.length → bytes[(x - off).toNat]? = some v) :
    (i.write off bytes).Keeps x v :=
  ⟨kept.1.write same, kept.2⟩

theorem Keeps.flush (kept : i.Keeps x v) : (i.flush picked).Keeps x v := by
  refine ⟨kept.1, ?_⟩
  simp only [Inode.flush]
  split
  · exact kept.1
  · exact kept.2

theorem Keeps.lose (kept : i.Keeps x v) : i.lose.Keeps x v := ⟨kept.2, kept.2⟩

end Inode
end Hfdl
