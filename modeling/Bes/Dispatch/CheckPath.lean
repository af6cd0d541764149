import Bes.Lib.FileTree

/-! `BESUtil::check_path`, which decides whether a path under the root directory of a
catalog may be read, and the search for symbolic links that it makes.

The strings are path names, so none holds a NUL; the system sets no limit to their length. -/
namespace Bes.Dispatch.CheckPath
open Lib.Path Lib.FileTree List

inductive Failure where
  | notFound (message : String)
  | forbidden (message : String)
  | internal (message : String)
  | undefined
  deriving DecidableEq, Repr

def throwAccessError (pathname : List Char) (errorNumber : Errno) : Failure :=
  match errorNumber with
  | .enoent | .enotdir => .notFound ("Failed to locate '" ++ String.ofList pathname ++ "'")
  | _ => .forbidden ("Not allowed to access '" ++ String.ofList pathname ++ "'")

def linkTestError (errorNumber : Errno) : Failure :=
  .internal ("Could not resolve path when testing for symbolic links: " ++ strerror errorNumber)

/-- `find_last_of` and `erase`: the pathname without its last part and the slash before it. -/
def eraseLast (pathname : List Char) : Option (List Char) :=
  if '/' ∈ pathname then some (pathname.rdropWhile fun c => decide (c ≠ '/')).dropLast else none

/-- The loop of `pathname_contains_symlink`; `left` is how many times `++i < search_limit`
still holds. -/
def testLinks (sys : System) : Nat → List Char → Except Failure Bool
  | 0, pathname =>
    match sys.lstat pathname with
    | .error errno => .error (linkTestError errno)
    | .ok node => .ok node.isLink
  | left + 1, pathname =>
    match sys.lstat pathname with
    | .error errno => .error (linkTestError errno)
    | .ok node =>
      if node.isLink then .ok true
      else
        match eraseLast pathname with
        | none => .ok false
        | some rest => if rest = [] then .ok false else testLinks sys left rest

def popSlash (path : List Char) : List Char :=
  if path.getLast? = some '/' then path.dropLast else path

def pathnameContainsSymlink (sys : System) (path : List Char) (searchLimit : Nat) :
    Except Failure Bool :=
  -- the body of the loop runs once before the limit is looked at
  testLinks sys (searchLimit - 1) (popSlash path)

def joinPath (root path : List Char) : List Char :=
  (if root.getLast? ≠ some '/' ∧ path.head? ≠ some '/' then root ++ ['/'] else root) ++ path

def checkPath (sys : System) (path root : List Char) (followSymLinks : Bool) :
    Except Failure Unit :=
  if path = [] then .ok ()
  else if ['.', '.'] <:+: path then .error (throwAccessError path .eacces)
  -- the last character of an empty root is read
  else if root = [] then .error .undefined
  else
    let pathname := joinPath root path
    match sys.access pathname with
    | .error errno => .error (throwAccessError pathname errno)
    | .ok () =>
      if followSymLinks then .ok ()
      else
        match pathnameContainsSymlink sys pathname (path.count '/') with
        | .error failure => .error failure
        | .ok true => .error (throwAccessError pathname .eacces)
        | .ok false => .ok ()

/-- The comment in `check_path`: the root is assumed to be valid. -/
def ValidRoot (sys : System) (root : List Char) : Prop :=
  ∃ node, sys.stat root = .ok node ∧ node.isDir = true

/-- What a caller relies on: the path does not climb, the object it names below the root
exists, and none of its components is a symbolic link. -/
structure Confined (sys : System) (root path : List Char) : Prop where
  no_dots : ¬ ['.', '.'] <:+: path
  below : ∃ base, sys.place root = .ok base ∧ (nodeAt sys.fs (base.1 ++ components path)).isSome
    ∧ ∀ first, first <+: components path → first ≠ [] →
        ∀ node, nodeAt sys.fs (base.1 ++ first) = some node → node.isLink = false

/-- `check_path` with symbolic links not allowed lets through only confined paths. -/
def Guards (path : List Char) : Prop :=
  ∀ sys root, ValidRoot sys root → checkPath sys path root false = .ok () → Confined sys root path

def EveryPartTested (path : List Char) : Prop :=
  ['.', '.'] <:+: path ∨ '/' ∉ path ∨ path.getLast? = some '/'
    ∨ path.head? = some '/' ∨ ['.', '/'] <+: path

instance (path : List Char) : Decidable (EveryPartTested path) := by
  unfold EveryPartTested
  infer_instance

theorem eraseLast_append_slash (path : List Char) (hpart : '/' ∉ part) :
    eraseLast (path ++ '/' :: part) = some path := by
  unfold eraseLast
  rw [if_pos (by simp)]
  induction part using reverseRecOn with
  | nil =>
    rw [rdropWhile_concat_neg _ _ _ (by simp), dropLast_concat]
  | append_singleton part c ih =>
    rw [mem_append, not_or, mem_singleton] at hpart
    rw [← cons_append, ← append_assoc,
      rdropWhile_concat_pos _ _ _ (by simpa using Ne.symm hpart.2), ih hpart.1]

section

variable {sys : System} {path base part : List Char} {parts : List (List Char)} {left : Nat}

def NotLink (sys : System) (path : List Char) : Prop :=
  ∃ node, sys.lstat path = .ok node ∧ node.isLink = false

def Tested (sys : System) (base : List Char) (parts : List (List Char)) : Prop :=
  ∀ init part, init ++ [part] <+: parts → NotLink sys (extend base (init ++ [part]))

theorem tested_nil (sys : System) (base : List Char) : Tested sys base [] := by
  intro init part hint
  simp at hint

theorem tested_concat_iff : Tested sys base (parts ++ [part])
      ↔ Tested sys base parts ∧ NotLink sys (extend base (parts ++ [part])) := by
  constructor
  · intro htes
    exact ⟨fun init other hint => htes init other (hint.trans (prefix_append _ _)),
      htes parts part (prefix_refl _)⟩
  · intro htes init other hint
    cases prefix_concat_iff.mp hint with
    | inl heq => rw [heq]; exact htes.2
    | inr hint => exact htes.1 init other hint

theorem testLinks_zero : testLinks sys 0 path = .ok false ↔ NotLink sys path := by
  unfold testLinks NotLink
  cases sys.lstat path <;> simp

theorem testLinks_succ (hpath : path ≠ []) (hpart : '/' ∉ part) :
    testLinks sys (left + 1) (path ++ '/' :: part) = .ok false
      ↔ NotLink sys (path ++ '/' :: part) ∧ testLinks sys left path = .ok false := by
  rw [testLinks, NotLink, eraseLast_append_slash path hpart]
  cases sys.lstat (path ++ '/' :: part) with
  | error errno => simp
  | ok node => cases hlnk : node.isLink <;> simp [hlnk, hpath]

theorem notLink_of_testLinks (htst : testLinks sys left path = .ok false) : NotLink sys path := by
  cases left with
  | zero => exact testLinks_zero.mp htst
  | succ left =>
    rw [testLinks] at htst
    cases hlast : sys.lstat path with
    | error errno => rw [hlast] at htst; contradiction
    | ok node =>
      cases hlnk : node.isLink with
      | false => exact ⟨node, hlast, hlnk⟩
      | true => simp [hlast, hlnk] at htst

theorem tested_of_testLinks (hslash : ∀ part ∈ parts, '/' ∉ part) (hlen : parts.length ≤ left + 1)
    (htst : testLinks sys left (extend base parts) = .ok false) : Tested sys base parts := by
  induction parts using reverseRecOn generalizing left with
  | nil => exact tested_nil sys base
  | append_singleton parts part ih =>
    rw [tested_concat_iff]
    refine ⟨?_, notLink_of_testLinks htst⟩
    rw [length_append, length_singleton] at hlen
    by_cases hpar : parts = []
    · rw [hpar]
      exact tested_nil sys base
    · cases left with
      | zero => exact absurd (length_eq_zero_iff.mp (by omega)) hpar
      | succ left =>
        rw [extend_concat, testLinks_succ (extend_ne_nil base hpar) (hslash part (by simp))] at htst
        exact ih (fun other hother => hslash other (mem_append_left _ hother)) (by omega) htst.2

theorem testLinks_of_tested (hbase : base ≠ []) (hslash : ∀ part ∈ parts, '/' ∉ part)
    (hlen : parts.length = left + 1) (htes : Tested sys base parts) :
    testLinks sys left (extend base parts) = .ok false := by
  induction parts using reverseRecOn generalizing left with
  | nil => contradiction
  | append_singleton parts part ih =>
    rw [tested_concat_iff] at htes
    rw [length_append, length_singleton] at hlen
    cases left with
    | zero => exact testLinks_zero.mpr htes.2
    | succ left =>
      have hne : extend base parts ≠ [] := by
        exact fun hnil => hbase (append_eq_nil_iff.mp hnil).1
      rw [extend_concat, testLinks_succ hne (hslash part (by simp)), ← extend_concat]
      exact ⟨htes.2, ih (fun other hother => hslash other (mem_append_left _ hother)) (by omega) htes.1⟩

end

section

variable {sys : System} {here : Place} {base part : List Char} {parts : List (List Char)}
  {found : Place × Nat}

structure Descended (sys : System) (here : Place) (base : List Char) (parts : List (List Char))
    (found : Place × Nat) : Prop where
  follow_eq : follow sys.fs maxLinks here (base.splitOn '/' ++ parts)
    = .ok (found.1 ++ named parts, found.2)
  no_link : ∀ first, first <+: named parts → first ≠ [] →
    ∀ node, nodeAt sys.fs (found.1 ++ first) = some node → node.isLink = false

theorem descended_nil (hbase : follow sys.fs maxLinks here (base.splitOn '/') = .ok found) :
    Descended sys here base [] found where
  follow_eq := by simpa [named] using hbase
  no_link := by
    intro first hfirst hne
    exact absurd (prefix_nil.mp hfirst) hne

theorem Descended.pass (hdwn : Descended sys here base parts found)
    (hpart : part = [] ∨ part = ['.']) (hslash : ∀ other ∈ parts ++ [part], '/' ∉ other)
    (hher : start sys.cwd (extend base (parts ++ [part])) = here)
    (htst : NotLink sys (extend base (parts ++ [part]))) :
    Descended sys here base (parts ++ [part]) found := by
  have hname : named (parts ++ [part]) = named parts := by
    rw [named_append, named_singleton_eq_nil hpart, append_nil]
  obtain ⟨node, hlast, -⟩ := htst
  have hsplit := splitOn_extend base hslash
  have hspecial : Special (((extend base (parts ++ [part])).splitOn '/').getLastD []) := by
    rw [hsplit, ← append_assoc, getLastD_concat]
    exact hpart.elim Or.inl fun hdot => Or.inr (Or.inl hdot)
  -- the whole pathname is followed, so its last part was passed
  rw [System.lstat_special hspecial, System.stat_ok_iff] at hlast
  obtain ⟨other, hplace, -⟩ := hlast
  rw [System.place, if_neg (extend_ne_nil base (by simp)), hher, hsplit, ← append_assoc] at hplace
  have hlas : follow sys.fs found.2 (found.1 ++ named parts) [part] = .ok other := by
    rw [← hplace, follow_append_of_ok hdwn.follow_eq]
  refine ⟨?_, ?_⟩
  · rw [← append_assoc, hplace, follow_singleton_unnamed hpart hlas, hname]
  · rw [hname]
    exact hdwn.no_link

theorem Descended.entry (hdwn : Descended sys here base parts found)
    (hpart : ¬ Special part) (hslash : ∀ other ∈ parts ++ [part], '/' ∉ other)
    (hher : start sys.cwd (extend base (parts ++ [part])) = here)
    (htst : NotLink sys (extend base (parts ++ [part]))) :
    Descended sys here base (parts ++ [part]) found := by
  have hname : named (parts ++ [part]) = named parts ++ [part] := by
    rw [named_append, named_singleton hpart]
  obtain ⟨child, hlast, hlnk⟩ := htst
  have hsplit : (extend base (parts ++ [part])).splitOn '/'
      = (base.splitOn '/' ++ parts) ++ [part] := by
    rw [splitOn_extend base hslash, append_assoc]
  rw [System.lstat_named (extend_ne_nil base (by simp)) hsplit hpart, hher, hdwn.follow_eq] at hlast
  -- the part is an entry of the directory that the parts before it lead to
  obtain ⟨node, hnod, hchi⟩ : ∃ node,
      nodeAt sys.fs (found.1 ++ named parts) = some node ∧ node.child part = .ok child := by
    cases hnod : nodeAt sys.fs (found.1 ++ named parts) with
    | none => simp [Except.bind, System.nodeOf, hnod] at hlast
    | some node => exact ⟨node, rfl, by simpa [Except.bind, System.nodeOf, hnod] using hlast⟩
  have hbel : nodeAt sys.fs (found.1 ++ (named parts ++ [part])) = some child := by
    rw [← append_assoc, nodeAt_append, hnod]
    exact nodeAt_singleton_of_child hchi
  refine ⟨?_, ?_⟩
  · rw [← append_assoc, follow_append_of_ok hdwn.follow_eq,
      follow_singleton_of_child hpart hnod hchi hlnk, hname, append_assoc]
  · rw [hname]
    intro first hfirst hne other hother
    cases prefix_concat_iff.mp hfirst with
    | inl heq =>
      rw [heq, hbel] at hother
      cases hother
      exact hlnk
    | inr hfirst => exact hdwn.no_link first hfirst hne other hother

theorem descended_of_tested (hbase : follow sys.fs maxLinks here (base.splitOn '/') = .ok found)
    (hslash : ∀ part ∈ parts, '/' ∉ part) (hdots : ['.', '.'] ∉ parts)
    (hher : ∀ first, first ≠ [] → start sys.cwd (extend base first) = here)
    (htes : Tested sys base parts) : Descended sys here base parts found := by
  induction parts using reverseRecOn with
  | nil => exact descended_nil hbase
  | append_singleton parts part ih =>
    rw [tested_concat_iff] at htes
    have hdwn := ih (fun other hother => hslash other (mem_append_left _ hother))
      (fun hmem => hdots (mem_append_left _ hmem)) htes.1
    have hhere' := hher (parts ++ [part]) (by simp)
    by_cases hspecial : Special part
    · apply hdwn.pass _ hslash hhere' htes.2
      have hne : part ≠ ['.', '.'] := by
        intro heq
        exact hdots (by simp [heq])
      unfold Special at hspecial
      tauto
    · exact hdwn.entry hspecial hslash hhere' htes.2

end

section

variable {sys : System} {path base body : List Char} {parts : List (List Char)}
  {found : Place × Nat}

theorem access_ok_iff : sys.access path = .ok ()
    ↔ ∃ node, sys.stat path = .ok node ∧ node.readable = true := by
  unfold System.access
  cases sys.stat path with
  | error errno => simp [bind, Except.bind]
  | ok node => cases hread : node.readable <;> simp [bind, Except.bind, hread]

theorem checkPath_ok_iff (hpath : path ≠ []) :
    checkPath sys path root false = .ok () ↔ ¬ ['.', '.'] <:+: path ∧ root ≠ []
      ∧ sys.access (joinPath root path) = .ok ()
      ∧ testLinks sys (path.count '/' - 1) (popSlash (joinPath root path)) = .ok false := by
  unfold checkPath pathnameContainsSymlink
  rw [if_neg hpath]
  by_cases hdots : ['.', '.'] <:+: path
  · simp [hdots]
  rw [if_neg hdots]
  by_cases hroot : root = []
  · simp [hroot]
  rw [if_neg hroot]
  dsimp only
  cases hacc : sys.access (joinPath root path) with
  | error errno => simp
  | ok =>
    rcases htst : testLinks sys (path.count '/' - 1) (popSlash (joinPath root path)) with
      failure | _ | _ <;> simp [hdots, hroot]

def BaseOf (root base : List Char) : Prop :=
  root = base ∨ root = base ++ ['/']

def Tail (tail : List (List Char)) : Prop :=
  tail = [] ∨ tail = [[]]

theorem joinPath_eq (root path : List Char) : ∃ base body, joinPath root path = base ++ '/' :: body
    ∧ BaseOf root base ∧ (path = '/' :: body ∨ path.head? ≠ some '/' ∧ path = body) := by
  unfold joinPath
  by_cases hhead : path.head? = some '/'
  · obtain ⟨body, rfl⟩ := head?_eq_some_iff.mp hhead
    exact ⟨root, body, by simp, Or.inl rfl, Or.inl rfl⟩
  · by_cases hlast : root.getLast? = some '/'
    · obtain ⟨base, rfl⟩ := getLast?_eq_some_iff.mp hlast
      exact ⟨base, path, by simp, Or.inr rfl, Or.inr ⟨hhead, rfl⟩⟩
    · exact ⟨root, path, by simp [hlast, hhead], Or.inl rfl, Or.inr ⟨hhead, rfl⟩⟩

theorem popSlash_append (base body : List Char) : ∃ parts tail, Tail tail
    ∧ popSlash (base ++ '/' :: body) = extend base parts ∧ body.splitOn '/' = parts ++ tail
    ∧ (tail = [] → ('/' :: body).getLast? ≠ some '/') := by
  unfold popSlash
  cases body using reverseRecOn with
  | nil => exact ⟨[], [[]], Or.inr rfl, by simp, rfl, by simp⟩
  | append_singleton body c =>
    rw [← cons_append, ← append_assoc, getLast?_concat]
    by_cases hc : c = '/'
    · subst hc
      refine ⟨body.splitOn '/', [[]], Or.inr rfl, ?_, ?_, by simp⟩
      · rw [extend_splitOn, if_pos rfl, dropLast_concat]
      · rw [splitOn_append_cons_self, splitOn_nil]
    · refine ⟨(body ++ [c]).splitOn '/', [], Or.inl rfl, ?_, (append_nil _).symm, ?_⟩
      · rw [extend_splitOn, if_neg (by simpa using hc)]
        simp
      · rw [getLast?_concat]
        simpa using hc

structure Joined (root path base : List Char) (parts tail : List (List Char)) : Prop where
  base_of : BaseOf root base
  tail_of : Tail tail
  ne_nil : parts ++ tail ≠ []
  join_eq : joinPath root path = extend base (parts ++ tail)
  pop_eq : popSlash (joinPath root path) = extend base parts
  no_slash : ∀ part ∈ parts ++ tail, '/' ∉ part
  isInfix : ∀ part ∈ parts, part <:+: path
  named_eq : named parts = components path
  splitOn_eq : path.splitOn '/' = [] :: (parts ++ tail)
    ∨ path.head? ≠ some '/' ∧ path.splitOn '/' = parts ++ tail
  last_ne : tail = [] → path.getLast? ≠ some '/'

theorem exists_joined (root path : List Char) : ∃ base parts tail,
    Joined root path base parts tail := by
  obtain ⟨base, body, hjon, hbase, hbody⟩ := joinPath_eq root path
  obtain ⟨parts, tail, htal, hpop, hsplit, hlast⟩ := popSlash_append base body
  have hname : named parts = components body := by
    rw [components_eq_named, hsplit, named_append]
    cases htal with
    | inl hnil => rw [hnil]; exact (append_nil _).symm
    | inr hslash => rw [hslash]; exact (append_nil _).symm
  have hpart : ∀ part ∈ parts, part <:+: body := by
    intro part hpart
    apply isInfix_of_mem_splitOn
    rw [hsplit]
    exact mem_append_left _ hpart
  refine ⟨base, parts, tail, hbase, htal, by simp [← hsplit], ?_, by rw [hjon, hpop], ?_, ?_, ?_, ?_, ?_⟩
  · rw [hjon, ← hsplit, extend_splitOn]
  · intro part hpart
    rw [← hsplit] at hpart
    exact slash_not_mem_of_mem_splitOn hpart
  · intro part hmem
    cases hbody with
    | inl hbody =>
      rw [hbody]
      exact (hpart part hmem).trans (suffix_cons '/' body).isInfix
    | inr hbody =>
      rw [hbody.2]
      exact hpart part hmem
  · cases hbody with
    | inl hbody => rw [hname, hbody, components_slash]
    | inr hbody => rw [hname, hbody.2]
  · cases hbody with
    | inl hbody =>
      left
      rw [hbody, ← hsplit]
      exact splitOn_append_cons_self [] body
    | inr hbody => exact Or.inr ⟨hbody.1, by rw [hbody.2, hsplit]⟩
  · intro hnil
    cases hbody with
    | inl hbody => rw [hbody]; exact hlast hnil
    | inr hbody =>
      rw [hbody.2]
      intro hbod
      exact hlast hnil (by rw [getLast?_cons, hbod]; rfl)

theorem start_extend (cwd : Place) (hbase : BaseOf root base) (hroot : root ≠ []) (hfirst : first ≠ []) :
    start cwd (extend base first) = start cwd root := by
  have hhead : (extend base first).head? = root.head? := by
    cases first with
    | nil => contradiction
    | cons part first =>
      cases base with
      | nil =>
        cases hbase with
        | inl heq => exact absurd heq hroot
        | inr heq => rw [heq]; simp [extend]
      | cons c base =>
        cases hbase with
        | inl heq => rw [heq]; simp [extend]
        | inr heq => rw [heq]; simp [extend]
  rw [start, start, hhead]

theorem follow_base (hbase : BaseOf root base) (hplace : sys.place root = .ok found) :
    follow sys.fs maxLinks (start sys.cwd root) (base.splitOn '/') = .ok found := by
  unfold System.place at hplace
  split at hplace
  · contradiction
  cases hbase with
  | inl heq => rwa [← heq]
  | inr heq =>
    have hsplit : root.splitOn '/' = base.splitOn '/' ++ [[]] := by
      rw [heq, splitOn_append_cons_self, splitOn_nil]
    rw [hsplit] at hplace
    obtain ⟨between, hfirst, hlast⟩ := follow_ok_left hplace
    rw [hfirst, follow_singleton_unnamed (Or.inl rfl) hlast]

theorem confined_of_descended {tail : List (List Char)}
    (hdots : ¬ ['.', '.'] <:+: path) (hroot : sys.place root = .ok found)
    (hdwn : Descended sys (start sys.cwd root) base parts found)
    (hname : named parts = components path) (htal : Tail tail)
    (hplace : follow sys.fs maxLinks (start sys.cwd root) (base.splitOn '/' ++ parts ++ tail)
      = .ok last) (hnod : nodeAt sys.fs last.1 = some node) : Confined sys root path := by
  rw [follow_append_of_ok hdwn.follow_eq] at hplace
  have hlast : last.1 = found.1 ++ components path := by
    cases htal with
    | inl hnil =>
      rw [hnil, follow_nil] at hplace
      cases hplace
      rw [hname]
    | inr hslash =>
      rw [hslash] at hplace
      rw [follow_singleton_unnamed (Or.inl rfl) hplace, hname]
  refine ⟨hdots, found, hroot, ?_, ?_⟩
  · rw [← hlast, hnod]
    rfl
  · rw [← hname]
    exact hdwn.no_link

theorem Joined.covered {tail : List (List Char)} (hjoi : Joined root path base parts tail)
    (hdots : ¬ ['.', '.'] <:+: path) (heve : EveryPartTested path) :
    parts.length ≤ path.count '/' - 1 + 1
      ∨ ∃ rest, parts = ['.'] :: rest ∧ rest.length ≤ path.count '/' - 1 + 1 := by
  have hcnt := length_splitOn path
  cases hjoi.splitOn_eq with
  | inl hsplit =>
    rw [hsplit, length_cons, length_append] at hcnt
    omega
  | inr hsplit =>
    rw [hsplit.2, length_append] at hcnt
    cases hjoi.tail_of with
    | inr hslash =>
      rw [hslash, length_singleton] at hcnt
      omega
    | inl hnil =>
      rcases heve with habs | hnone | hlast | hhead | hdot
      · exact absurd habs hdots
      · rw [count_eq_zero_of_not_mem hnone] at hcnt
        omega
      · exact absurd hlast (hjoi.last_ne hnil)
      · exact absurd hhead hsplit.1
      · right
        obtain ⟨rest, hrest⟩ := hdot
        refine ⟨rest.splitOn '/', ?_, ?_⟩
        · rw [← append_nil parts, ← hnil, ← hsplit.2, ← hrest]
          exact splitOn_append_cons_self ['.'] rest
        · rw [length_splitOn, ← hrest]
          simp

theorem confined_of_testLinks {tail : List (List Char)} (hdots : ¬ ['.', '.'] <:+: path) (hroot : sys.place root = .ok found)
    (hbase : follow sys.fs maxLinks (start sys.cwd root) (base.splitOn '/') = .ok found)
    (hher : ∀ first, first ≠ [] → start sys.cwd (extend base first) = start sys.cwd root)
    (hslash : ∀ part ∈ parts, '/' ∉ part) (hpar : ∀ part ∈ parts, part <:+: path)
    (hname : named parts = components path) (htal : Tail tail)
    (hplace : follow sys.fs maxLinks (start sys.cwd root) (base.splitOn '/' ++ parts ++ tail)
      = .ok last) (hnod : nodeAt sys.fs last.1 = some node) (hlen : parts.length ≤ left + 1)
    (htst : testLinks sys left (extend base parts) = .ok false) : Confined sys root path := by
  have hnoo : ['.', '.'] ∉ parts := fun hmem => hdots (hpar _ hmem)
  have htes := tested_of_testLinks hslash hlen htst
  have hdwn := descended_of_tested hbase hslash hnoo hher htes
  exact confined_of_descended hdots hroot hdwn hname htal hplace hnod

theorem confined_of_everyPartTested (hpath : path ≠ []) (heve : EveryPartTested path)
    (hroot : sys.place root = .ok found) (hche : checkPath sys path root false = .ok ()) :
    Confined sys root path := by
  rw [checkPath_ok_iff hpath, access_ok_iff] at hche
  obtain ⟨hdots, hne, ⟨node, hstt, -⟩, htst⟩ := hche
  obtain ⟨last, hplace, hnod⟩ := System.stat_ok_iff.mp hstt
  obtain ⟨base, parts, tail, hjoi⟩ := exists_joined root path
  have hbase := follow_base hjoi.base_of hroot
  have hslash : ∀ part ∈ parts, '/' ∉ part := fun part hpart =>
    hjoi.no_slash part (mem_append_left _ hpart)
  have hher : ∀ first, first ≠ [] → start sys.cwd (extend base first) = start sys.cwd root :=
    fun first hfirst => start_extend sys.cwd hjoi.base_of hne hfirst
  rw [System.place, hjoi.join_eq, if_neg (extend_ne_nil base hjoi.ne_nil),
    hher _ hjoi.ne_nil, splitOn_extend base hjoi.no_slash, ← append_assoc] at hplace
  rw [hjoi.pop_eq] at htst
  cases hjoi.covered hdots heve with
  | inl hlen =>
    exact confined_of_testLinks hdots hroot hbase hher hslash hjoi.isInfix hjoi.named_eq
      hjoi.tail_of hplace hnod hlen htst
  | inr hdot =>
    obtain ⟨rest, hpar, hlen⟩ := hdot
    subst hpar
    -- the dot is taken into the base: it leads nowhere
    have hsplit : (base ++ ['/', '.']).splitOn '/' = base.splitOn '/' ++ [['.']] :=
      splitOn_append_cons_self base ['.']
    have hpar : base.splitOn '/' ++ ['.'] :: rest ++ tail
        = (base ++ ['/', '.']).splitOn '/' ++ rest ++ tail := by
      rw [hsplit, append_assoc (base.splitOn '/') [['.']] rest, singleton_append]
    rw [hpar] at hplace
    have hbae : follow sys.fs maxLinks (start sys.cwd root) ((base ++ ['/', '.']).splitOn '/')
        = .ok found := by
      rw [append_assoc] at hplace
      obtain ⟨between, hfirst, -⟩ := follow_ok_left hplace
      rw [hfirst]
      rw [hsplit, follow_append_of_ok hbase] at hfirst
      rw [follow_singleton_unnamed (Or.inr rfl) hfirst]
    rw [extend_cons] at htst
    apply confined_of_testLinks hdots hroot hbae _ _ _ _ hjoi.tail_of hplace hnod hlen htst
    · intro first hfirst
      rw [← hher (['.'] :: first) (by simp), extend_cons]
    · exact fun part hpart => hslash part (mem_cons_of_mem _ hpart)
    · exact fun part hpart => hjoi.isInfix part (mem_cons_of_mem _ hpart)
    · exact hjoi.named_eq

end

section

def nest : List (List Char) → Node
  | [] => .dir true true []
  | part :: parts =>
    if part = [] ∨ part = ['.'] then nest parts else .dir true true [(part, nest parts)]

variable {fs : Node} {place : Place} {part : List Char} {parts : List (List Char)}

theorem nest_eq_dir (parts : List (List Char)) : ∃ entries, nest parts = .dir true true entries := by
  induction parts with
  | nil => exact ⟨[], rfl⟩
  | cons part parts ih =>
    unfold nest
    split
    · exact ih
    · exact ⟨_, rfl⟩

theorem nest_isLink (parts : List (List Char)) : (nest parts).isLink = false := by
  obtain ⟨entries, hent⟩ := nest_eq_dir parts
  rw [hent]
  rfl

theorem follow_nest (left : Nat) (hplace : nodeAt fs place = some (nest parts)) (hdots : ['.', '.'] ∉ parts)
    (hint : init <+: parts) : follow fs left place init = .ok (place ++ named init, left)
      ∧ ∃ entries, nodeAt fs (place ++ named init) = some (.dir true true entries) := by
  induction parts generalizing place init with
  | nil =>
    rw [prefix_nil.mp hint]
    exact ⟨by simp [named], [], by simpa [named, nest] using hplace⟩
  | cons part parts ih =>
    obtain ⟨entries, hent⟩ := nest_eq_dir (part :: parts)
    rw [mem_cons, not_or] at hdots
    cases init with
    | nil => exact ⟨by simp [named], entries, by simpa [named, hent] using hplace⟩
    | cons first init =>
      rw [cons_prefix_cons] at hint
      obtain ⟨rfl, hint⟩ := hint
      rw [nest] at hplace
      by_cases hunn : first = [] ∨ first = ['.']
      · rw [if_pos hunn] at hplace
        have hstep : step fs place first = .ok (.arrive place) := by
          obtain ⟨entries, hent⟩ := nest_eq_dir parts
          rw [hent] at hplace
          unfold step
          rw [hplace]
          cases hunn with
          | inl hnil => rw [hnil]; rfl
          | inr hdot => rw [hdot]; rfl
        have hname : named (first :: init) = named init := by
          rw [← singleton_append, named_append, named_singleton_eq_nil hunn, nil_append]
        rw [follow_cons_arrive hstep, hname]
        exact ih hplace hdots.2 hint
      · rw [if_neg hunn] at hplace
        rw [not_or] at hunn
        have hspecial : ¬ Special first := by
          rintro (hnil | hdot | hdots')
          · exact hunn.1 hnil
          · exact hunn.2 hdot
          · exact hdots.1 hdots'.symm
        have hchi : (Node.dir true true [(first, nest parts)]).child first = .ok (nest parts) := by
          simp [Node.child]
        have hbel : nodeAt fs (place ++ [first]) = some (nest parts) := by
          rw [nodeAt_append, hplace]
          exact nodeAt_singleton_of_child hchi
        have hstep : follow fs left place [first] = .ok (place ++ [first], left) :=
          follow_singleton_of_child hspecial hplace hchi (nest_isLink parts)
        have hname : place ++ named (first :: init) = place ++ [first] ++ named init := by
          rw [← singleton_append, named_append, named_singleton hspecial, append_assoc]
        rw [← singleton_append, follow_append_of_ok hstep, singleton_append, hname]
        exact ih hbel hdots.2 hint

def linkedTree (first : List Char) (parts : List (List Char)) : Node :=
  .dir true true [(first, .link (first ++ ['~'])), (first ++ ['~'], nest parts)]

def linkedSystem (first : List Char) (parts : List (List Char)) : System where
  fs := linkedTree first parts
  cwd := []

variable {first : List Char}

theorem linkedTree_child (first : List Char) (parts : List (List Char)) :
    (linkedTree first parts).child (first ++ ['~']) = .ok (nest parts) := by
  have hne : (first ++ ['~'] == first) = false := by simp
  simp [linkedTree, Node.child, lookup_cons, hne]

theorem follow_linkedTree (hslash : '/' ∉ first) (hspecial : ¬ Special first) :
    follow (linkedTree first parts) maxLinks [] [[], first] = .ok ([first ++ ['~']], 39) := by
  have hsta : start [] (first ++ ['~']) = [] := by
    exact ite_self []
  have hsplit : (first ++ ['~']).splitOn '/' = [first ++ ['~']] := by
    apply splitOn_eq_singleton
    simpa using hslash
  have hroot : step (linkedTree first parts) [] [] = .ok (.arrive []) := rfl
  have hjmp : step (linkedTree first parts) [] first = .ok (.jump [] [first ++ ['~']]) := by
    rw [step_named hspecial rfl, linkedTree, Node.child]
    simp [Except.map, enter, hsta, hsplit]
  have hasi : ¬ Special (first ++ ['~']) := by
    rintro (hnil | hdot | hdots)
    · simp at hnil
    · have hlast := congrArg getLast? hdot
      simp at hlast
    · have hlast := congrArg getLast? hdots
      simp at hlast
  rw [follow_cons_arrive hroot, maxLinks, follow_cons_jump hjmp, append_nil]
  exact follow_singleton_of_child hasi rfl (linkedTree_child first parts) (nest_isLink parts)

theorem splitOn_slash_cons (hslash : '/' ∉ first) : ('/' :: first).splitOn '/' = [[], first] := by
  rw [← nil_append ('/' :: first), splitOn_append_cons_self, splitOn_eq_singleton hslash]
  rfl

theorem start_slash_cons (cwd : Place) (first : List Char) (init : List (List Char)) :
    start cwd (extend ('/' :: first) init) = [] := by
  simp [start, extend]

theorem linked_descent (hslash : '/' ∉ first) (hspecial : ¬ Special first)
    (hdots : ['.', '.'] ∉ parts) (hint : init <+: parts) :
    follow (linkedTree first parts) maxLinks [] ([[], first] ++ init)
        = .ok ([first ++ ['~']] ++ named init, 39)
      ∧ ∃ entries, nodeAt (linkedTree first parts) ([first ++ ['~']] ++ named init)
        = some (.dir true true entries) := by
  rw [follow_append_of_ok (follow_linkedTree hslash hspecial)]
  exact follow_nest 39 (nodeAt_singleton_of_child (linkedTree_child first parts)) hdots hint

theorem stat_linkedSystem (hslash : '/' ∉ first) (hspecial : ¬ Special first)
    (hpar : ∀ part ∈ parts, '/' ∉ part) (hdots : ['.', '.'] ∉ parts) (hint : init <+: parts) :
    ∃ entries, (linkedSystem first parts).stat (extend ('/' :: first) init)
      = .ok (.dir true true entries) := by
  obtain ⟨hfollow, entries, hent⟩ := linked_descent hslash hspecial hdots hint
  refine ⟨entries, System.stat_ok_iff.mpr ⟨([first ++ ['~']] ++ named init, 39), ?_, hent⟩⟩
  rw [System.place, if_neg (by simp [extend]), start_slash_cons,
    splitOn_extend _ fun part hpart => hpar part (hint.subset hpart), splitOn_slash_cons hslash]
  exact hfollow

theorem tested_linkedSystem (hslash : '/' ∉ first) (hspecial : ¬ Special first)
    (hpar : ∀ part ∈ parts, '/' ∉ part) (hdots : ['.', '.'] ∉ parts) :
    Tested (linkedSystem first parts) ('/' :: first) parts := by
  intro init part hint
  have hall : ∀ other ∈ init ++ [part], '/' ∉ other := fun other hother =>
    hpar other (hint.subset hother)
  have hsplit : (extend ('/' :: first) (init ++ [part])).splitOn '/'
      = ([[], first] ++ init) ++ [part] := by
    rw [splitOn_extend _ hall, splitOn_slash_cons hslash, append_assoc]
  by_cases hpart : Special part
  · obtain ⟨entries, hstt⟩ := stat_linkedSystem hslash hspecial hpar hdots hint
    refine ⟨.dir true true entries, ?_, rfl⟩
    rw [System.lstat_special (by rwa [hsplit, getLastD_concat])]
    exact hstt
  · have hinit' : init <+: parts := (prefix_append init [part]).trans hint
    obtain ⟨hfollow, above, habo⟩ := linked_descent hslash hspecial hdots hinit'
    obtain ⟨-, below, hbel⟩ := linked_descent hslash hspecial hdots hint
    rw [named_append, named_singleton hpart, ← append_assoc, nodeAt_append, habo,
      Option.bind_some] at hbel
    refine ⟨.dir true true below, ?_, rfl⟩
    rw [System.lstat_named (by simp [extend]) hsplit hpart, start_slash_cons]
    change (follow (linkedTree first parts) maxLinks [] ([[], first] ++ init)).bind _ = _
    rw [hfollow]
    have hnod : (linkedSystem first parts).nodeOf ([first ++ ['~']] ++ named init)
        = .ok (.dir true true above) := by
      unfold System.nodeOf
      exact habo ▸ rfl
    change ((linkedSystem first parts).nodeOf ([first ++ ['~']] ++ named init)).bind _ = _
    rw [hnod]
    exact child_of_nodeAt_singleton hbel

theorem eq_append_of_not_everyPartTested (hpath : ¬ EveryPartTested path) :
    ∃ first rest, path = first ++ '/' :: rest ∧ '/' ∉ first ∧ ¬ Special first
      ∧ ('/' :: rest).getLast? ≠ some '/' := by
  unfold EveryPartTested at hpath
  simp only [not_or, not_not] at hpath
  obtain ⟨hdots, hmem, hlast, hhead, hdot⟩ := hpath
  obtain ⟨first, rest, rfl, hfirst⟩ := eq_append_cons_of_mem hmem
  refine ⟨first, rest, rfl, hfirst, ?_, ?_⟩
  · rintro (hnil | heq | heq)
    · exact hhead (by rw [hnil]; rfl)
    · exact hdot ⟨rest, by rw [heq]; rfl⟩
    · exact hdots ⟨[], '/' :: rest, by rw [heq]; rfl⟩
  · rwa [getLast?_append_of_ne_nil _ (by simp)] at hlast

theorem linkedSystem_validRoot (first : List Char) (parts : List (List Char)) :
    ValidRoot (linkedSystem first parts) ['/'] :=
  ⟨linkedTree first parts, rfl, rfl⟩

theorem checkPath_linkedSystem (hslash : '/' ∉ first) (hspecial : ¬ Special first)
    (hlast : ('/' :: rest).getLast? ≠ some '/') (hdots : ¬ ['.', '.'] <:+: first ++ '/' :: rest) :
    checkPath (linkedSystem first (rest.splitOn '/')) (first ++ '/' :: rest) ['/'] false = .ok () := by
  have hpar : ∀ part ∈ rest.splitOn '/', '/' ∉ part := fun part =>
    slash_not_mem_of_mem_splitOn
  have hnod : ['.', '.'] ∉ rest.splitOn '/' := by
    intro hmem
    apply hdots
    exact (isInfix_of_mem_splitOn hmem).trans ⟨first ++ ['/'], [], by simp⟩
  have hjon : joinPath ['/'] (first ++ '/' :: rest)
      = extend ('/' :: first) (rest.splitOn '/') := by
    rw [extend_splitOn]
    rfl
  have hpop : popSlash (extend ('/' :: first) (rest.splitOn '/'))
      = extend ('/' :: first) (rest.splitOn '/') := by
    rw [popSlash, if_neg]
    rwa [extend_splitOn, getLast?_append_of_ne_nil _ (by simp)]
  have hlen : (rest.splitOn '/').length = (first ++ '/' :: rest).count '/' - 1 + 1 := by
    rw [length_splitOn, count_append, count_eq_zero_of_not_mem hslash, count_cons_self]
    omega
  obtain ⟨entries, hstt⟩ :=
    stat_linkedSystem hslash hspecial hpar hnod (prefix_refl (rest.splitOn '/'))
  rw [checkPath_ok_iff (by simp), hjon, hpop, access_ok_iff]
  refine ⟨hdots, by simp, ⟨_, hstt, rfl⟩, ?_⟩
  apply testLinks_of_tested (by simp) hpar hlen
  exact tested_linkedSystem hslash hspecial hpar hnod

theorem linkedSystem_not_confined
    (hcom : [first] <+: components path) : ¬ Confined (linkedSystem first parts) ['/'] path := by
  intro hcon
  obtain ⟨base, hbase, -, hline⟩ := hcon.below
  have hplace : (linkedSystem first parts).place ['/'] = .ok ([], maxLinks) := rfl
  cases hbase
  have hlnk : nodeAt (linkedTree first parts) [first] = some (.link (first ++ ['~'])) := by
    simp [linkedTree, nodeAt]
  have hno := hline [first] hcom (by simp) _ hlnk
  contradiction

end

/-- What follows from the limit on the search for symbolic links: a path is guarded exactly
when its first component does not escape the search. -/
theorem guards_iff_everyPartTested (path : List Char) : Guards path ↔ EveryPartTested path := by
  constructor
  · intro hgua
    by_contra hunt
    have hdots : ¬ ['.', '.'] <:+: path := fun hmem => hunt (Or.inl hmem)
    obtain ⟨first, rest, rfl, hslash, hspec, hlast⟩ := eq_append_of_not_everyPartTested hunt
    refine linkedSystem_not_confined ?_ (hgua _ _ (linkedSystem_validRoot first _)
      (checkPath_linkedSystem hslash hspec hlast hdots))
    rw [components_append_slash, components_eq_named, splitOn_eq_singleton hslash,
      named_singleton hspec]
    exact prefix_append _ _
  · intro heve sys root hroot hche
    obtain ⟨node, hstat, hdir⟩ := hroot
    obtain ⟨found, hplace, hnode⟩ := System.stat_ok_iff.mp hstat
    by_cases hpath : path = []
    · -- the root is all there is
      subst hpath
      refine ⟨by simp, found, hplace, by simp [hnode], ?_⟩
      intro first hfirst hne
      exact absurd (prefix_nil.mp hfirst) hne
    · exact confined_of_everyPartTested hpath heve hplace hche

def linkedCatalog : System where
  fs := .dir true true [("hyrax".toList, .dir true true [("data".toList, .link "/etc".toList)]),
      ("etc".toList, .dir true true [("hosts".toList, .file 1 true)])]
  cwd := []

/-- The link is the first component, and only the last one is looked at. -/
theorem linkedCatalog_not_confined :
    checkPath linkedCatalog "data/hosts".toList "/hyrax".toList false = .ok ()
      ∧ ValidRoot linkedCatalog "/hyrax".toList
      ∧ ¬ Confined linkedCatalog "/hyrax".toList "data/hosts".toList := by
  have hplace : linkedCatalog.place "/hyrax".toList = .ok (["hyrax".toList], maxLinks) := by
    decide +kernel
  refine ⟨by decide +kernel, ?_, ?_⟩
  · exact ⟨_, System.stat_ok_iff.mpr ⟨_, hplace, rfl⟩, rfl⟩
  · intro hcon
    obtain ⟨base, hbase, -, hline⟩ := hcon.below
    cases hbase
    have hlink := hline ["data".toList] (by decide) (by decide) (.link "/etc".toList) rfl
    contradiction

example : checkPath linkedCatalog "/data/hosts".toList "/hyrax".toList false
    = .error (.forbidden "Not allowed to access '/hyrax/data/hosts'") := by decide +kernel

end Bes.Dispatch.CheckPath
