import Bes.Lib.Path

/-! A file tree with symbolic links, and the system calls that follow a path through it.
The last component of a path is followed by `stat` and `access` and left alone by
`lstat`; a path that ends in a slash or in dots has nothing to leave alone. -/
namespace Bes.Lib.FileTree
open Lib.Path List

inductive Node where
  | file (inode : Nat) (readable : Bool)
  | dir (readable searchable : Bool) (entries : List (List Char × Node))
  | link (target : List Char)

inductive Errno where
  | enoent
  | enotdir
  | eacces
  | eloop
  deriving DecidableEq, Repr

def strerror : Errno → String
  | .enoent => "No such file or directory"
  | .enotdir => "Not a directory"
  | .eacces => "Permission denied"
  | .eloop => "Too many levels of symbolic links"

def Node.isLink : Node → Bool
  | .link _ => true
  | _ => false

def Node.isDir : Node → Bool
  | .dir _ _ _ => true
  | _ => false

def Node.readable : Node → Bool
  | .file _ readable => readable
  | .dir readable _ _ => readable
  | .link _ => true

def Node.search : Node → Except Errno Unit
  | .dir _ true _ => .ok ()
  | .dir _ false _ => .error .eacces
  | _ => .error .enotdir

def Node.child (name : List Char) : Node → Except Errno Node
  | .dir _ true entries =>
    match entries.lookup name with
    | some node => .ok node
    | none => .error .enoent
  | .dir _ false _ => .error .eacces
  | _ => .error .enotdir

def nodeAt : Node → Place → Option Node
  | node, [] => some node
  | .dir _ _ entries, name :: place =>
    match entries.lookup name with
    | some node => nodeAt node place
    | none => none
  | _, _ :: _ => none

/-- What one component of a path leads to: a place, or the target of a link to be followed
from some place. -/
inductive Move where
  | arrive (place : Place)
  | jump (place : Place) (target : List (List Char))

def start (cwd : Place) (path : List Char) : Place :=
  if path.head? = some '/' then [] else cwd

def enter (place : Place) (part : List Char) : Node → Move
  | .link target => .jump (start place target) (target.splitOn '/')
  | _ => .arrive (place ++ [part])

def step (fs : Node) (place : Place) (part : List Char) : Except Errno Move :=
  match nodeAt fs place with
  | none => .error .enoent
  | some node =>
    if part = [] then
      if node.isDir then .ok (.arrive place) else .error .enotdir
    else if part = ['.'] then
      node.search.map fun _ => .arrive place
    else if part = ['.', '.'] then
      node.search.map fun _ => .arrive place.dropLast
    else
      (node.child part).map (enter place part)

def followWith (jump : Place → List (List Char) → Except Errno (Place × Nat)) (left : Nat)
    (fs : Node) : Place → List (List Char) → Except Errno (Place × Nat)
  | place, [] => .ok (place, left)
  | place, part :: parts =>
    match step fs place part with
    | .error errno => .error errno
    | .ok (.arrive next) => followWith jump left fs next parts
    | .ok (.jump next target) => jump next (target ++ parts)

/-- Follows the parts of a path. At most `left` links are followed; what is left of that
number is returned with the place. -/
def follow (fs : Node) : Nat → Place → List (List Char) → Except Errno (Place × Nat)
  | 0 => followWith (fun _ _ => .error .eloop) 0 fs
  | left + 1 => followWith (follow fs left) (left + 1) fs

def maxLinks : Nat := 40

def Special (part : List Char) : Prop :=
  part = [] ∨ part = ['.'] ∨ part = ['.', '.']

instance (part : List Char) : Decidable (Special part) := by
  unfold Special
  infer_instance

structure System where
  fs : Node
  cwd : Place

namespace System

def place (sys : System) (path : List Char) : Except Errno (Place × Nat) :=
  if path = [] then .error .enoent
  else follow sys.fs maxLinks (start sys.cwd path) (path.splitOn '/')

def nodeOf (sys : System) (place : Place) : Except Errno Node :=
  match nodeAt sys.fs place with
  | some node => .ok node
  | none => .error .enoent

def stat (sys : System) (path : List Char) : Except Errno Node := do
  let found ← sys.place path
  sys.nodeOf found.1

def lstat (sys : System) (path : List Char) : Except Errno Node :=
  let parts := path.splitOn '/'
  if path = [] then .error .enoent
  else if Special (parts.getLastD []) then sys.stat path
  else do
    let found ← follow sys.fs maxLinks (start sys.cwd path) parts.dropLast
    let node ← sys.nodeOf found.1
    node.child (parts.getLastD [])

def access (sys : System) (path : List Char) : Except Errno Unit := do
  let node ← sys.stat path
  if node.readable then .ok () else .error .eacces

end System

section

variable {fs : Node} {place : Place} {part : List Char} {parts : List (List Char)} {left : Nat}

@[simp] theorem follow_nil (fs : Node) (left : Nat) (place : Place) :
    follow fs left place [] = .ok (place, left) := by
  cases left <;> rfl

theorem follow_cons_arrive {next : Place} (hstp : step fs place part = .ok (.arrive next)) :
    follow fs left place (part :: parts) = follow fs left next parts := by
  cases left <;> simp only [follow, followWith, hstp]

theorem follow_cons_jump {next : Place} {target : List (List Char)}
    (hstp : step fs place part = .ok (.jump next target)) :
    follow fs (left + 1) place (part :: parts) = follow fs left next (target ++ parts) := by
  simp only [follow, followWith, hstp]

theorem follow_cons_error (hstp : step fs place part = .error errno) :
    follow fs left place (part :: parts) = .error errno := by
  cases left <;> simp only [follow, followWith, hstp]

theorem followWith_append (hend : ∀ place, followWith jump left fs place second = rest (place, left))
    (hjmp : ∀ place parts, jump place (parts ++ second) = (jump place parts).bind rest)
    (place : Place) (first : List (List Char)) : followWith jump left fs place (first ++ second)
      = (followWith jump left fs place first).bind rest := by
  induction first generalizing place with
  | nil => exact hend place
  | cons part parts ih =>
    rw [cons_append, followWith, followWith]
    cases step fs place part with
    | error errno => rfl
    | ok move =>
      cases move with
      | arrive next => exact ih next
      | jump next target =>
        -- the target stands before the parts that are left
        simp only [← append_assoc]
        exact hjmp next (target ++ parts)

theorem follow_append (fs : Node) (left : Nat) (place : Place) (first second : List (List Char)) :
    follow fs left place (first ++ second)
      = (follow fs left place first).bind fun found => follow fs found.2 found.1 second := by
  induction left generalizing place first with
  | zero => exact followWith_append (fun _ => rfl) (fun _ _ => rfl) place first
  | succ left ih => exact followWith_append (fun _ => rfl) ih place first

theorem follow_append_of_ok (hfst : follow fs left place first = .ok found) :
    follow fs left place (first ++ second) = follow fs found.2 found.1 second := by
  rw [follow_append, hfst]
  rfl

theorem follow_ok_left (hfol : follow fs left place (first ++ second) = .ok found) :
    ∃ between, follow fs left place first = .ok between
      ∧ follow fs between.2 between.1 second = .ok found := by
  rw [follow_append] at hfol
  cases hfst : follow fs left place first with
  | error errno => rw [hfst] at hfol; contradiction
  | ok between => exact ⟨between, rfl, by rw [hfst] at hfol; exact hfol⟩

theorem step_ok_of_follow_cons (hfol : follow fs left place (part :: parts) = .ok found) :
    ∃ move, step fs place part = .ok move := by
  cases hstp : step fs place part with
  | error errno =>
    rw [follow_cons_error hstp] at hfol
    cases hfol
  | ok move => exact ⟨move, rfl⟩

theorem nodeAt_append (fs : Node) (first second : Place) :
    nodeAt fs (first ++ second) = (nodeAt fs first).bind fun node => nodeAt node second := by
  induction first generalizing fs with
  | nil => rfl
  | cons name place ih =>
    cases fs with
    | file inode readable => rfl
    | link target => rfl
    | dir readable searchable entries =>
      rw [cons_append, nodeAt, nodeAt]
      cases entries.lookup name with
      | none => rfl
      | some node => exact ih node

mutual

def Node.inodes : Node → List Nat
  | .file inode _ => [inode]
  | .dir _ _ entries => inodesOf entries
  | .link _ => []

def inodesOf : List (List Char × Node) → List Nat
  | [] => []
  | (_, node) :: entries => node.inodes ++ inodesOf entries

end

theorem inodes_subset_of_lookup
    (hloo : entries.lookup name = some node) : node.inodes ⊆ inodesOf entries := by
  induction entries with
  | nil => contradiction
  | cons entry entries ih =>
    rw [lookup_cons] at hloo
    split at hloo
    · cases hloo
      exact subset_append_left _ _
    · exact subset_append_of_subset_right _ (ih hloo)

theorem mem_inodes_of_nodeAt
    (hnod : nodeAt fs place = some (.file inode readable)) : inode ∈ fs.inodes := by
  induction place generalizing fs with
  | nil =>
    cases hnod
    exact mem_singleton_self inode
  | cons name place ih =>
    cases fs with
    | file inode readable => contradiction
    | link target => contradiction
    | dir readable searchable entries =>
      rw [nodeAt] at hnod
      cases hloo : entries.lookup name with
      | none => rw [hloo] at hnod; contradiction
      | some node =>
        rw [hloo] at hnod
        exact inodes_subset_of_lookup hloo (ih hnod)

theorem nodeAt_singleton_of_child
    (hchi : node.child name = .ok child) : nodeAt node [name] = some child := by
  cases node with
  | file inode readable => contradiction
  | link target => contradiction
  | dir readable searchable entries =>
    cases searchable with
    | false => contradiction
    | true =>
      rw [Node.child] at hchi
      rw [nodeAt]
      cases hloo : entries.lookup name with
      | none => rw [hloo] at hchi; contradiction
      | some entry =>
        rw [hloo] at hchi
        cases hchi
        rfl

theorem child_of_nodeAt_singleton (hnod : nodeAt (.dir readable true entries) [name] = some child) :
    (Node.dir readable true entries).child name = .ok child := by
  rw [nodeAt] at hnod
  rw [Node.child]
  cases hloo : entries.lookup name with
  | none => rw [hloo] at hnod; contradiction
  | some entry =>
    rw [hloo] at hnod
    cases hnod
    rfl

def named (parts : List (List Char)) : List (List Char) :=
  parts.filter fun part => decide (part ≠ [] ∧ part ≠ ['.'])

theorem components_eq_named (path : List Char) : components path = named (path.splitOn '/') := rfl

@[simp] theorem named_append (first second : List (List Char)) :
    named (first ++ second) = named first ++ named second :=
  filter_append first second

theorem named_singleton (hprt : ¬ Special part) : named [part] = [part] := by
  unfold Special at hprt
  rw [not_or, not_or] at hprt
  simp [named, hprt.1, hprt.2.1]

theorem named_singleton_eq_nil (hprt : part = [] ∨ part = ['.']) : named [part] = [] := by
  cases hprt with
  | inl hnil => rw [hnil]; rfl
  | inr hdot => rw [hdot]; rfl

theorem step_unnamed (hprt : part = [] ∨ part = ['.'])
    (hstp : step fs place part = .ok move) : move = .arrive place := by
  unfold step at hstp
  cases hnod : nodeAt fs place with
  | none => rw [hnod] at hstp; contradiction
  | some node =>
    rw [hnod] at hstp
    cases hprt with
    | inl hnil =>
      subst hnil
      cases node <;> simp [Node.isDir] at hstp
      exact hstp.symm
    | inr hdot =>
      subst hdot
      cases hsea : node.search with
      | error errno => simp [hsea, Except.map] at hstp
      | ok => simpa [hsea, Except.map] using hstp.symm

theorem step_named (hspc : ¬ Special part) (hnod : nodeAt fs place = some node) :
    step fs place part = (node.child part).map (enter place part) := by
  unfold Special at hspc
  rw [not_or, not_or] at hspc
  unfold step
  rw [hnod]
  dsimp only
  rw [if_neg hspc.1, if_neg hspc.2.1, if_neg hspc.2.2]

theorem follow_singleton_unnamed {found : Place × Nat} (hprt : part = [] ∨ part = ['.'])
    (hfol : follow fs left place [part] = .ok found) : found = (place, left) := by
  obtain ⟨move, hstp⟩ := step_ok_of_follow_cons hfol
  cases step_unnamed hprt hstp
  rw [follow_cons_arrive hstp, follow_nil] at hfol
  cases hfol
  rfl

theorem follow_singleton_of_child {child : Node} (hspc : ¬ Special part)
    (hnod : nodeAt fs place = some node) (hchi : node.child part = .ok child)
    (hlnk : child.isLink = false) : follow fs left place [part] = .ok (place ++ [part], left) := by
  have hstp : step fs place part = .ok (.arrive (place ++ [part])) := by
    rw [step_named hspc hnod, hchi]
    cases child with
    | link target => contradiction
    | file inode readable => rfl
    | dir readable searchable entries => rfl
  rw [follow_cons_arrive hstp, follow_nil]

end

def fullTree (names : List (List Char)) : Nat → Node
  | 0 => .dir true true []
  | depth + 1 => .dir true true (names.map fun name => (name, fullTree names depth))

namespace fullTree

variable {names parts : List (List Char)} {part : List Char} {place : Place} {depth : Nat}

theorem isLink (names : List (List Char)) (depth : Nat) : (fullTree names depth).isLink = false := by
  cases depth <;> rfl

theorem readable (names : List (List Char)) (depth : Nat) : (fullTree names depth).readable = true := by
  cases depth <;> rfl

theorem isDir (names : List (List Char)) (depth : Nat) : (fullTree names depth).isDir = true := by
  cases depth <;> rfl

theorem search (names : List (List Char)) (depth : Nat) : (fullTree names depth).search = .ok () := by
  cases depth <;> rfl

theorem lookup_map (hprt : part ∈ names) :
    (names.map fun name => (name, node)).lookup part = some node := by
  induction names with
  | nil => contradiction
  | cons name names ih =>
    rw [map_cons, lookup_cons]
    by_cases heq : part = name
    · rw [beq_iff_eq.mpr heq]
    · rw [beq_eq_false_iff_ne.mpr heq]
      exact ih ((mem_cons.mp hprt).resolve_left heq)

structure Holds (names : List (List Char)) (depth : Nat) (place : Place) : Prop where
  length_le : place.length ≤ depth
  names_mem : ∀ name ∈ place, name ∈ names

theorem nodeAt_eq (hpla : Holds names depth place) :
    nodeAt (fullTree names depth) place = some (fullTree names (depth - place.length)) := by
  induction place generalizing depth with
  | nil => rfl
  | cons name place ih =>
    obtain ⟨hlen, hnam⟩ := hpla
    cases depth with
    | zero => simp at hlen
    | succ depth =>
      rw [length_cons, Nat.add_le_add_iff_right] at hlen
      rw [fullTree, nodeAt, lookup_map (hnam name mem_cons_self), length_cons, Nat.add_sub_add_right]
      exact ih ⟨hlen, fun other hoth => hnam other (mem_cons_of_mem _ hoth)⟩

theorem child_eq (hprt : part ∈ names) (hpla : place.length < depth) :
    (fullTree names (depth - place.length)).child part
      = .ok (fullTree names (depth - (place.length + 1))) := by
  obtain ⟨rest, hrst⟩ := Nat.exists_eq_add_of_lt hpla
  have hscc : depth - place.length = rest + 1 := by omega
  have hprd : depth - (place.length + 1) = rest := by omega
  rw [hscc, hprd, fullTree, Node.child, lookup_map hprt]

theorem step_eq (hpla : Holds names depth place) (hlen : place.length < depth)
    (hprt : part ∈ names) : ∃ next, step (fullTree names depth) place part = .ok (.arrive next)
      ∧ next.length ≤ place.length + 1 ∧ Holds names depth next := by
  have hnod := nodeAt_eq hpla
  by_cases hspc : Special part
  · have hup : Holds names depth place.dropLast := by
      refine ⟨by rw [length_dropLast]; omega, fun name hnam => ?_⟩
      exact hpla.names_mem name (dropLast_subset place hnam)
    obtain hnil | hdot | hdts := hspc
    · refine ⟨place, ?_, by omega, hpla⟩
      simp [step, hnod, hnil, isDir]
    · refine ⟨place, ?_, by omega, hpla⟩
      simp [step, hnod, hdot, search, Except.map]
    · refine ⟨place.dropLast, ?_, by rw [length_dropLast]; omega, hup⟩
      simp [step, hnod, hdts, search, Except.map]
  · refine ⟨place ++ [part], ?_, by simp, by rw [length_append]; exact hlen, ?_⟩
    · have hent : enter place part (fullTree names (depth - (place.length + 1)))
          = .arrive (place ++ [part]) := by
        cases depth - (place.length + 1) <;> rfl
      rw [step_named hspc hnod, child_eq hprt hlen, Except.map, hent]
    · intro name hnam
      rw [mem_append, mem_singleton] at hnam
      cases hnam with
      | inl hmem => exact hpla.names_mem name hmem
      | inr heq => rwa [heq]

theorem follow_eq (left : Nat) (hpla : Holds names depth place)
    (hlen : place.length + parts.length ≤ depth) (hpar : ∀ part ∈ parts, part ∈ names) :
    ∃ last, follow (fullTree names depth) left place parts = .ok (last, left)
      ∧ last.length ≤ place.length + parts.length ∧ Holds names depth last := by
  induction parts generalizing place with
  | nil => exact ⟨place, follow_nil _ _ _, by simp, hpla⟩
  | cons part parts ih =>
    rw [length_cons] at hlen
    obtain ⟨next, hstp, hnxt, hhol⟩ := step_eq hpla (by omega) (hpar part mem_cons_self)
    obtain ⟨last, hfol, hlst, hend⟩ := ih hhol (by omega)
      fun other hoth => hpar other (mem_cons_of_mem _ hoth)
    refine ⟨last, ?_, by rw [length_cons]; omega, hend⟩
    rw [follow_cons_arrive hstp, hfol]

end fullTree

namespace System

variable {sys : System} {path last : List Char}

theorem lstat_special (hspc : Special ((path.splitOn '/').getLastD [])) :
    sys.lstat path = sys.stat path := by
  unfold lstat
  dsimp only
  rw [if_pos hspc]
  by_cases hpth : path = []
  · rw [if_pos hpth, hpth]
    rfl
  · rw [if_neg hpth]

theorem lstat_named (hpth : path ≠ []) (hpar : path.splitOn '/' = init ++ [last])
    (hspc : ¬ Special last) :
    sys.lstat path = (follow sys.fs maxLinks (start sys.cwd path) init).bind fun found =>
      (sys.nodeOf found.1).bind fun node => node.child last := by
  unfold lstat
  have hlst : (init ++ [last]).getLastD [] = last := by simp
  have hint : (init ++ [last]).dropLast = init := by simp
  dsimp only
  rw [hpar, hlst, hint, if_neg hpth, if_neg hspc]
  rfl

theorem stat_ok_iff : sys.stat path = .ok node ↔ ∃ found, sys.place path = .ok found
      ∧ nodeAt sys.fs found.1 = some node := by
  unfold stat nodeOf
  cases sys.place path with
  | error errno => simp [bind, Except.bind]
  | ok found =>
    cases hnod : nodeAt sys.fs found.1 <;> simp [bind, Except.bind, hnod]

def full (names : List (List Char)) (depth : Nat) : System where
  fs := fullTree names depth
  cwd := []

section

variable {names parts : List (List Char)} {depth : Nat}

theorem full_nodeOf {place : Place} (hpla : fullTree.Holds names depth place) :
    (full names depth).nodeOf place = .ok (fullTree names (depth - place.length)) := by
  have hnod : nodeAt (full names depth).fs place = _ := fullTree.nodeAt_eq hpla
  unfold nodeOf
  rw [hnod]

theorem full_follow (path : List Char) (hlen : parts.length ≤ depth)
    (hpar : ∀ part ∈ parts, part ∈ names) :
    ∃ last, follow (full names depth).fs maxLinks (start (full names depth).cwd path) parts
        = .ok (last, maxLinks) ∧ last.length ≤ parts.length ∧ fullTree.Holds names depth last := by
  have hsta : start (full names depth).cwd path = [] := by
    exact ite_self []
  have hrot : fullTree.Holds names depth [] := ⟨Nat.zero_le _, by simp⟩
  obtain ⟨last, hfol, hlst, hhol⟩ := fullTree.follow_eq maxLinks hrot (by simpa using hlen) hpar
  refine ⟨last, ?_, by simpa using hlst, hhol⟩
  rw [hsta]
  exact hfol

theorem full_stat (hpth : path ≠ []) (hlen : (path.splitOn '/').length ≤ depth)
    (hpar : ∀ part ∈ path.splitOn '/', part ∈ names) :
    ∃ rest, (full names depth).stat path = .ok (fullTree names rest) := by
  obtain ⟨last, hfol, -, hhol⟩ := full_follow path hlen hpar
  refine ⟨depth - last.length, ?_⟩
  unfold stat place
  rw [if_neg hpth, hfol]
  exact full_nodeOf hhol

theorem full_lstat (hpth : path ≠ []) (hlen : (path.splitOn '/').length ≤ depth)
    (hpar : ∀ part ∈ path.splitOn '/', part ∈ names) :
    ∃ rest, (full names depth).lstat path = .ok (fullTree names rest) := by
  by_cases hspc : Special ((path.splitOn '/').getLastD [])
  · rw [lstat_special hspc]
    exact full_stat hpth hlen hpar
  · have hne : path.splitOn '/' ≠ [] := by
      intro hnil
      have hcnt := length_splitOn path
      rw [hnil] at hcnt
      simp at hcnt
    have hspl := (dropLast_append_getLast hne).symm
    have hlst : (path.splitOn '/').getLast hne ∈ names := hpar _ (getLast_mem hne)
    rw [getLastD_eq_getLast?, getLast?_eq_some_getLast hne] at hspc
    have hint : (path.splitOn '/').dropLast.length < depth := by
      have hpos := length_pos_of_ne_nil hne
      rw [length_dropLast]
      omega
    obtain ⟨last, hfol, hle, hhol⟩ := full_follow path hint.le
      fun part hprt => hpar part (dropLast_subset _ hprt)
    refine ⟨depth - (last.length + 1), ?_⟩
    rw [lstat_named hpth hspl hspc, hfol]
    dsimp only [Except.bind]
    rw [full_nodeOf hhol]
    exact fullTree.child_eq hlst (by omega)

end

end System

end Bes.Lib.FileTree
