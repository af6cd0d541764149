import Bes.Dispatch.CheckPath
import Bes.Http.Url

/-! `AllowedHosts::is_allowed`: whether the server may dereference a URL. An HTTP URL is looked
up in a list of expressions; a file URL is compared with the root directory of the default
catalog as a string, and what follows the root is given to `check_path`. -/
namespace Bes.Http.AllowedHosts
open Dispatch Dispatch.CheckPath Lib.Path Lib.FileTree List

structure Env extends World where
  sys : System
  followSymLinks : Bool
  allowedHosts : List Str
  regcomp : Regcomp

inductive Failure where
  | internal (message : String)
  | regex (message : Str)
  | undefined
  deriving DecidableEq, Repr

/-- The return value, and `why_not` after the call. -/
structure Answer where
  allowed : Bool
  whyNot : String
  deriving DecidableEq, Repr

def check (regcomp : Regcomp) : List Str → Str → Except Failure Bool
  | [], _ => .ok false
  | pattern :: allowedHosts, url =>
    match newRegex regcomp pattern with
    | .error message => .error (.regex message)
    | .ok find => if regexMatch find url = url.length then .ok true else check regcomp allowedHosts url

/-- The call of `check_path`; two of its exceptions are answers. -/
def checkRelative (env : Env) (root relativePath : Str) (whyNot : String) : Except Failure Answer :=
  match checkPath env.sys relativePath root env.followSymLinks with
  | .ok () => .ok ⟨true, whyNot⟩
  | .error (.notFound message) => .ok ⟨false, message⟩
  | .error (.forbidden message) => .ok ⟨false, message⟩
  | .error (.internal message) => .error (.internal message)
  | .error .undefined => .error .undefined

def checkFile (env : Env) (root filePath : Str) (whyNot : String) : Except Failure Answer :=
  if filePath.head? = some '/' then
    if filePath.length < root.length then
      .ok ⟨false, "Path is out of scope from configuration."⟩
    else if root <+: filePath then checkRelative env root (filePath.drop root.length) whyNot
    else .ok ⟨false, whyNot⟩
  else checkRelative env root filePath whyNot

def isAllowed (env : Env) (url : Url) (whyNot : String) : Except Failure Answer :=
  if url.protocol = fileProtocol then
    match env.catalogRoot with
    | none =>
      .error (.internal
        "INTERNAL_ERROR: Unable to locate default catalog. Check BES configuration.")
    | some root => checkFile env root url.path whyNot
  else if url.protocol = httpsProtocol ∨ url.protocol = httpProtocol then
    if url.isTrusted then .ok ⟨true, whyNot⟩
    else (check env.regcomp env.allowedHosts url.sourceUrlStr).map fun allowed => ⟨allowed, whyNot⟩
  else
    .error (.internal
      ("The candidate_url utilizes an unsupported protocol '" ++ String.ofList url.protocol ++ "'"))

/-- The path of the file that a file URL stands for: a path that does not start with a slash
is one below the root. -/
def namedPath (root path : Str) : Str :=
  if path.head? = some '/' then path
  else if path = [] then root
  else joinPath root path

def Inside (root path : Str) : Prop :=
  ∃ rest, path = root ++ rest ∧ ['.', '.'] ∉ rest.splitOn '/'
    ∧ (rest = [] ∨ root.getLast? = some '/' ∨ rest.head? = some '/')

def Contained (root : Str) (followSymLinks : Bool) (path : Str) : Prop :=
  ∀ (env : Env) urlS trusted url whyNot reason, env.catalogRoot = some root →
    env.followSymLinks = followSymLinks → Url.ofString env.toWorld urlS trusted = .ok url →
    url.protocol = fileProtocol → url.path = path → isAllowed env url whyNot = .ok ⟨true, reason⟩ →
    Inside root (namedPath root path)

/-- The path does not continue the last name of the root: it is relative, it does not start
with the root or climbs after it, or a slash stands between the root and the rest. -/
def Separated (root path : Str) : Prop :=
  path.head? ≠ some '/' ∨ ¬ root <+: path
    ∨ ['.', '.'] <:+: path.drop root.length ∨ path.drop root.length = []
    ∨ root.getLast? = some '/' ∨ (path.drop root.length).head? = some '/'

instance (root path : Str) : Decidable (Separated root path) := by
  unfold Separated
  infer_instance

section

variable {env : Env} {path rest : Str} {whyNot : String} {url : Url}

theorem inside_append_iff : Inside root (root ++ rest) ↔ ['.', '.'] ∉ rest.splitOn '/'
    ∧ (rest = [] ∨ root.getLast? = some '/' ∨ rest.head? = some '/') := by
  constructor
  · rintro ⟨other, heq, hins⟩
    rwa [append_cancel_left heq]
  · intro hins
    exact ⟨rest, rfl, hins⟩

theorem checkRelative_allowed_iff : checkRelative env root relativePath whyNot = .ok ⟨true, reason⟩
    ↔ checkPath env.sys relativePath root env.followSymLinks = .ok () ∧ reason = whyNot := by
  unfold checkRelative
  cases hche : checkPath env.sys relativePath root env.followSymLinks with
  | ok => simp [eq_comm]
  | error failure => cases failure <;> simp

theorem not_dots_of_checkPath {follow : Bool}
    (hche : checkPath sys relativePath root follow = .ok ()) : ¬ ['.', '.'] <:+: relativePath := by
  intro hdots
  have hne : relativePath ≠ [] := by
    rintro rfl
    simp at hdots
  unfold checkPath at hche
  rw [if_neg hne, if_pos hdots] at hche
  contradiction

theorem dots_not_mem_of_checkPath {follow : Bool}
    (hche : checkPath sys relativePath root follow = .ok ()) :
    ['.', '.'] ∉ relativePath.splitOn '/' :=
  fun hmem => not_dots_of_checkPath hche (isInfix_of_mem_splitOn hmem)

theorem isAllowed_file (hroot : env.catalogRoot = some root) (hfil : url.protocol = fileProtocol)
    (whyNot : String) : isAllowed env url whyNot = checkFile env root url.path whyNot := by
  unfold isAllowed
  rw [if_pos hfil, hroot]

theorem checkFile_relative (hhead : path.head? ≠ some '/') :
    checkFile env root path whyNot = checkRelative env root path whyNot := by
  unfold checkFile
  rw [if_neg hhead]

theorem checkFile_append (hhead : (root ++ rest).head? = some '/') :
    checkFile env root (root ++ rest) whyNot = checkRelative env root rest whyNot := by
  have hlen : ¬ (root ++ rest).length < root.length := by
    rw [length_append]
    omega
  unfold checkFile
  rw [if_pos hhead, if_neg hlen, if_pos (prefix_append root rest), drop_left]

theorem checkFile_not_prefixed (hhead : path.head? = some '/') (hroot : ¬ root <+: path) :
    checkFile env root path whyNot ≠ .ok ⟨true, reason⟩ := by
  unfold checkFile
  rw [if_pos hhead, if_neg hroot]
  split <;> simp

theorem inside_joinPath (hhead : path.head? ≠ some '/') (hdots : ['.', '.'] ∉ path.splitOn '/') :
    Inside root (joinPath root path) := by
  unfold joinPath
  split
  · rw [append_assoc]
    apply inside_append_iff.mpr
    rw [singleton_append, ← nil_append ('/' :: path), splitOn_append_cons_self, splitOn_nil]
    simpa using hdots
  next hend =>
    rw [not_and_not_right] at hend
    apply inside_append_iff.mpr
    exact ⟨hdots, .inr (.inl (by_contra fun hlast => hhead (hend hlast)))⟩

theorem inside_of_separated (hsep : Separated root path)
    (hche : checkFile env root path whyNot = .ok ⟨true, reason⟩) :
    Inside root (namedPath root path) := by
  unfold namedPath
  by_cases hhead : path.head? = some '/'
  · rw [if_pos hhead]
    by_cases hroot : root <+: path
    · obtain ⟨rest, rfl⟩ := hroot
      rw [checkFile_append hhead, checkRelative_allowed_iff] at hche
      unfold Separated at hsep
      rw [drop_left] at hsep
      apply inside_append_iff.mpr
      refine ⟨dots_not_mem_of_checkPath hche.1, ?_⟩
      obtain hrel | hother | hcli | hbou := hsep
      · contradiction
      · exact absurd (prefix_append root rest) hother
      · exact absurd hcli (not_dots_of_checkPath hche.1)
      · exact hbou
    · exact absurd hche (checkFile_not_prefixed hhead hroot)
  · rw [if_neg hhead]
    rw [checkFile_relative hhead, checkRelative_allowed_iff] at hche
    have hdots := dots_not_mem_of_checkPath hche.1
    by_cases hpath : path = []
    · rw [if_pos hpath]
      exact ⟨[], by simp⟩
    · rw [if_neg hpath]
      exact inside_joinPath hhead hdots

end

section

variable {rest path : Str} {names : List Str} {depth : Nat}

theorem testLinks_full (left : Nat) (hpath : path ≠ []) (hlen : (path.splitOn '/').length ≤ depth)
    (hpar : ∀ part ∈ path.splitOn '/', part ∈ names) :
    testLinks (System.full names depth) left path = .ok false := by
  induction left generalizing path with
  | zero =>
    obtain ⟨deep, hlast⟩ := System.full_lstat hpath hlen hpar
    exact testLinks_zero.mpr ⟨_, hlast, fullTree.isLink names deep⟩
  | succ left ih =>
    obtain ⟨deep, hlast⟩ := System.full_lstat hpath hlen hpar
    have hlnk := fullTree.isLink names deep
    by_cases hmem : '/' ∈ path
    · obtain ⟨init, part, rfl, hpart⟩ := eq_append_slash_of_mem hmem
      by_cases hint : init = []
      · rw [testLinks, hlast, eraseLast_append_slash init hpart]
        simp [hlnk, hint]
      · rw [splitOn_append_cons_self, length_append] at hlen
        rw [splitOn_append_cons_self] at hpar
        rw [testLinks_succ hint hpart]
        refine ⟨⟨_, hlast, hlnk⟩, ih hint (by omega) ?_⟩
        exact fun other hother => hpar other (mem_append_left _ hother)
    · rw [testLinks, hlast]
      simp [hlnk, eraseLast, hmem]

theorem testLinks_popSlash (left : Nat) (hroot : root ≠ [])
    (hlen : ((root ++ '/' :: rest).splitOn '/').length ≤ depth)
    (hpar : ∀ part ∈ (root ++ '/' :: rest).splitOn '/', part ∈ names) :
    testLinks (System.full names depth) left (popSlash (root ++ '/' :: rest)) = .ok false := by
  obtain ⟨parts, tail, -, hpop, hrest, -⟩ := popSlash_append root rest
  have hslash : ∀ part ∈ parts, '/' ∉ part := by
    intro part hpart
    have hmem : part ∈ rest.splitOn '/' := by
      rw [hrest]
      exact mem_append_left tail hpart
    exact slash_not_mem_of_mem_splitOn hmem
  have hne : extend root parts ≠ [] := by
    exact fun hnil => hroot (append_eq_nil_iff.mp hnil).1
  rw [splitOn_append_cons_self, hrest, ← append_assoc, ← splitOn_extend root hslash] at hlen hpar
  rw [length_append] at hlen
  rw [hpop]
  apply testLinks_full left hne (by omega)
  exact fun part hpart => hpar part (mem_append_left tail hpart)

theorem checkPath_full (follow : Bool) (hroot : root ≠ []) (hlast : root.getLast? ≠ some '/')
    (hhead : rest.head? ≠ some '/') (hdots : ¬ ['.', '.'] <:+: rest)
    (hlen : ((root ++ '/' :: rest).splitOn '/').length ≤ depth)
    (hpar : ∀ part ∈ (root ++ '/' :: rest).splitOn '/', part ∈ names) :
    checkPath (System.full names depth) rest root follow = .ok () := by
  have hjon : joinPath root rest = root ++ '/' :: rest := by
    unfold joinPath
    rw [if_pos ⟨hlast, hhead⟩, append_assoc]
    rfl
  obtain ⟨deep, hstt⟩ := System.full_stat (by simp) hlen hpar
  have hacc : (System.full names depth).access (root ++ '/' :: rest) = .ok () :=
    access_ok_iff.mpr ⟨_, hstt, fullTree.readable names deep⟩
  have hline := testLinks_popSlash (rest.count '/' - 1) hroot hlen hpar
  unfold checkPath pathnameContainsSymlink
  simp only [hdots, hroot, hjon, hacc, hline, if_false]
  split
  · rfl
  · cases follow <;> rfl

theorem ofString_file (world : World) (path : Str) (trusted : Bool) :
    ∃ url, Url.ofString world (fileProtocol ++ path) trusted = .ok url
      ∧ url.protocol = fileProtocol ∧ url.path = path := by
  have hafter : afterFirst protocolEnd (fileProtocol ++ path) = some path := by
    cases path <;> rfl
  have htarget : parseTarget world.catalogRoot (fileProtocol ++ path)
      = .ok (fileProtocol ++ path) := by
    unfold parseTarget
    rfl
  have htake : (fileProtocol ++ path).take ((fileProtocol ++ path).length - path.length)
      = fileProtocol := by
    rw [length_append, Nat.add_sub_cancel, take_left]
  have hlow : lowercase fileProtocol = fileProtocol := by decide
  have hstr : (Url.unparsed world (fileProtocol ++ path) trusted).sourceUrlStr
      = fileProtocol ++ path := rfl
  unfold Url.ofString parse
  rw [hstr, htarget]
  dsimp only
  rw [hafter, Option.getD_some, htake, hlow]
  by_cases hpath : path = []
  · rw [if_pos hpath]
    exact ⟨_, rfl, rfl, hpath.symm⟩
  · rw [if_neg hpath, if_pos rfl, drop_left]
    exact ⟨_, rfl, rfl, rfl⟩

end

def fullEnv (root : Str) (followSymLinks : Bool) (path : Str) : Env where
  now := 0
  mktime := fun _ _ _ _ _ _ => 0
  uninitialized := 0
  catalogRoot := some root
  sys := System.full (path.splitOn '/') (path.splitOn '/').length
  followSymLinks := followSymLinks
  allowedHosts := []
  regcomp := fun _ => .error []

/-- What follows from comparing the root as a string: the file URLs that are allowed stay
inside the root exactly when the path does not continue the last name of the root. -/
theorem contained_iff_separated (root : Str) (followSymLinks : Bool) (path : Str) :
    Contained root followSymLinks path ↔ Separated root path := by
  constructor
  · intro hcnt
    by_contra hcon
    unfold Separated at hcon
    simp only [not_or, not_not] at hcon
    obtain ⟨hhead, ⟨rest, rfl⟩, hdots, hrest, hlast, hslash⟩ := hcon
    rw [drop_left] at hdots hrest hslash
    have hroot : root ≠ [] := by
      rintro rfl
      exact hslash hhead
    let env := fullEnv root followSymLinks (root ++ '/' :: rest)
    obtain ⟨url, hurl, hfile, hpath⟩ := ofString_file env.toWorld (root ++ rest) false
    have hche : checkPath env.sys rest root env.followSymLinks = .ok () :=
      checkPath_full followSymLinks hroot hlast hslash hdots le_rfl fun part hpart => hpart
    have hall : isAllowed env url "" = .ok ⟨true, ""⟩ := by
      rw [isAllowed_file rfl hfile, hpath, checkFile_append hhead]
      exact checkRelative_allowed_iff.mpr ⟨hche, rfl⟩
    have hins := hcnt env _ _ url _ _ rfl rfl hurl hfile hpath hall
    unfold namedPath at hins
    rw [if_pos hhead, inside_append_iff] at hins
    obtain hnil | hend | hsta := hins.2
    · exact hrest hnil
    · exact hlast hend
    · exact hslash hsta
  · intro hsep env urlS trusted url whyNot reason hroot hfollow hurl hfile hpath hall
    rw [isAllowed_file hroot hfile, hpath] at hall
    exact inside_of_separated hsep hall

def siblingEnv : Env where
  now := 0
  mktime := fun _ _ _ _ _ _ => 0
  uninitialized := 0
  catalogRoot := some "/data/run".toList
  sys := {
    fs := .dir true true [("data".toList, .dir true true [
      ("run".toList, .dir true true [("1".toList, .dir true true [("a.nc".toList, .file 1 true)])]),
      ("run1".toList, .dir true true [("a.nc".toList, .file 2 true)])])]
    cwd := [] }
  followSymLinks := false
  allowedHosts := []
  regcomp := fun _ => .error []

theorem siblingUrl_not_inside :
    ∃ url, Url.ofString siblingEnv.toWorld "file:///data/run1/a.nc".toList false = .ok url
      ∧ isAllowed siblingEnv url "" = .ok ⟨true, ""⟩
      ∧ ¬ Inside "/data/run".toList (namedPath "/data/run".toList url.path) := by
  obtain ⟨url, hurl, hfile, hpath⟩ :=
    ofString_file siblingEnv.toWorld "/data/run1/a.nc".toList false
  have hche : checkFile siblingEnv "/data/run".toList "/data/run1/a.nc".toList ""
      = .ok ⟨true, ""⟩ := by
    decide +kernel
  refine ⟨url, hurl, ?_, ?_⟩
  · rw [isAllowed_file rfl hfile, hpath, hche]
  · intro hins
    have hname : namedPath "/data/run".toList "/data/run1/a.nc".toList
        = "/data/run".toList ++ "1/a.nc".toList := by
      decide
    rw [hpath, hname, inside_append_iff] at hins
    exact absurd hins.2 (by decide)

end Bes.Http.AllowedHosts
