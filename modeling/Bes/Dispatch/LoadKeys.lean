import Bes.Dispatch.Util
import Bes.Lib.FileTree
import Bes.Lib.Traversal

/-! `kvp::load_keys`: the configuration files are read line by line, and a line with the key
`BES.Include` loads further files before the next line is read. The names of the files
already loaded are kept in a set of strings. -/
namespace Bes.Dispatch.LoadKeys
open Lib.Path Lib.FileTree Lib.Traversal

structure Host where
  sys : System
  contents : Nat → Str
  regcomp : Regcomp

structure FSFile where
  dirName : Str
  fileName : Str
  deriving DecidableEq, Repr

def breakApart (fullPath : Str) : FSFile :=
  if '/' ∈ fullPath then
    ⟨(fullPath.rdropWhile fun c => decide (c ≠ '/')).dropLast,
      fullPath.rtakeWhile fun c => decide (c ≠ '/')⟩
  else ⟨"./".toList, fullPath⟩

def FSFile.getFullPath (file : FSFile) : Str :=
  file.dirName ++ '/' :: file.fileName

def opendir (host : Host) (dirName : Str) : Option (List Str) :=
  match host.sys.stat dirName with
  | .ok (.dir true _ entries) => some (entries.map Prod.fst)
  | _ => none

/-- The loop of `BESFSDir::loadDir` over the entries of the directory. The expression is
compiled for each file. -/
def listFiles (host : Host) (dirName fileExpr : Str) : List Str → Except Str (List FSFile)
  | [] => .ok []
  | dirEntry :: rest =>
    if dirEntry = ".".toList ∨ dirEntry = "..".toList then listFiles host dirName fileExpr rest
    else
      match host.sys.stat (dirName ++ '/' :: dirEntry) with
      | .error _ => listFiles host dirName fileExpr rest
      | .ok node =>
        if node.isDir then listFiles host dirName fileExpr rest
        else if fileExpr = [] then
          (listFiles host dirName fileExpr rest).map (⟨dirName, dirEntry⟩ :: ·)
        else
          match newRegex host.regcomp fileExpr with
          | .error message => .error message
          | .ok find =>
            if regexMatch find dirEntry = dirEntry.length then
              (listFiles host dirName fileExpr rest).map (⟨dirName, dirEntry⟩ :: ·)
            else listFiles host dirName fileExpr rest

def loadDir (host : Host) (dirName fileExpr : Str) : Except Str (List FSFile) :=
  match opendir host dirName with
  | none => .error ("ERROR: failed to open directory '".toList ++ dirName ++ "'".toList)
  | some entries => listFiles host dirName fileExpr entries

def isHere (dir : Str) : Prop :=
  dir = "./".toList ∨ dir = ".".toList

instance (dir : Str) : Decidable (isHere dir) := by
  unfold isHere
  infer_instance

def newDir (currentKeysFileName fileExpr : Str) : Str :=
  let alldir := (breakApart fileExpr).dirName
  if fileExpr.head? = some '/' then alldir
  else
    let currdir := (breakApart currentKeysFileName).dirName
    if isHere currdir ∧ isHere alldir then "./".toList
    else if isHere alldir then currdir
    else currdir ++ '/' :: alldir

def includeFiles (host : Host) (currentKeysFileName fileExpr : Str) : Except Str (List Str) :=
  (loadDir host (newDir currentKeysFileName fileExpr) (breakApart fileExpr).fileName).map
    (List.map FSFile.getFullPath)

def onlyBlanks (line : Str) : Bool :=
  line.all fun c => c == ' '

def invalidEntry (b what : Str) : Str :=
  "BES: Invalid entry ".toList ++ b ++ " in configuration file ".toList ++ what

/-- The loop of `break_pair` for the equal sign: `j` is the position reached, `pos` that of the
last plus sign. -/
def findEquals (b : Str) : Str → Nat → Nat → Bool → Except Str (Nat × Bool)
  | [], _, _, _ => .error (invalidEntry b " '=' character not found.\n".toList)
  | c :: rest, j, pos, addto =>
    if c = '=' then
      if addto = false then .ok (j, addto)
      else if pos ≠ j - 1 then
        .error (invalidEntry b (" '+' character found in variable name".toList
          ++ " or attempting '+=' with space between the characters.\n".toList))
      else .ok (pos, addto)
    else if c = '+' then findEquals b rest (j + 1) j true
    else findEquals b rest (j + 1) pos addto

structure Pair where
  key : Str
  value : Str
  addto : Bool
  deriving DecidableEq, Repr

def breakPair (line : Str) : Except Str (Option Pair) :=
  let b := line.takeWhile fun c => decide (c ≠ Char.ofNat 0)
  if b.head? ≠ some '#' ∧ onlyBlanks b = false ∧ 1 < b.length then
    (findEquals b b 0 0 false).map fun (pos, addto) => some
      { key := removeLeadingAndTrailingBlanks (b.take pos)
        value := removeLeadingAndTrailingBlanks (b.drop (pos + if addto then 2 else 1))
        addto := addto }
  else .ok none

abbrev Keystore := Str → Option (List Str)

def setKey (key val : Str) (addto : Bool) (keystore : Keystore) : Keystore :=
  let vals := if addto then (keystore key).getD [] else []
  Function.update keystore key (some (if val = [] then vals else vals ++ [val]))

structure State where
  loaded : List Str
  keystore : Keystore
  applied : List Str

def State.start (keystore : Keystore) : State where
  loaded := []
  keystore := keystore
  applied := []

def State.setKey (state : State) (key val : Str) (addto : Bool) : State :=
  { state with keystore := LoadKeys.setKey key val addto state.keystore }

/-- A call returns, or throws `BESInternalFatalError`: every exception is caught by the
`load_keys` around it and thrown again as one, with the same message. -/
inductive Outcome where
  | done (state : State)
  | thrown (message : Str) (state : State)

def Outcome.state : Outcome → State
  | .done state => state
  | .thrown _ state => state

def Outcome.andThen (rest : State → Option Outcome) : Option Outcome → Option Outcome
  | some (.done state) => rest state
  | result => result

def loadIncludeFile (loadKeys : Str → State → Option Outcome) (file : Str) (state : State) :
    Option Outcome :=
  if file ∈ state.loaded then some (.done state)
  else loadKeys file { state with loaded := file :: state.loaded }

def loadFiles (loadKeys : Str → State → Option Outcome) : List Str → State → Option Outcome
  | [], state => some (.done state)
  | file :: rest, state =>
    Outcome.andThen (loadFiles loadKeys rest) (loadIncludeFile loadKeys file state)

def loadIncludeFiles (host : Host) (loadKeys : Str → State → Option Outcome)
    (currentKeysFileName fileExpr : Str) (state : State) : Option Outcome :=
  match includeFiles host currentKeysFileName fileExpr with
  | .error message => some (.thrown message state)
  | .ok files => loadFiles loadKeys files state

def besIncludeKey : Str := "BES.Include".toList

def loadLine (host : Host) (loadKeys : Str → State → Option Outcome) (currentKeysFileName : Str)
    (line : Str) (state : State) : Option Outcome :=
  match breakPair line with
  | .error message => some (.thrown message state)
  | .ok none => some (.done state)
  | .ok (some pair) =>
    if pair.key = besIncludeKey then
      loadIncludeFiles host loadKeys currentKeysFileName pair.value
        (state.setKey pair.key pair.value true)
    else some (.done (state.setKey pair.key pair.value pair.addto))

def loadLines (host : Host) (loadKeys : Str → State → Option Outcome) (currentKeysFileName : Str) :
    List Str → State → Option Outcome
  | [], state => some (.done state)
  | line :: rest, state =>
    Outcome.andThen (loadLines host loadKeys currentKeysFileName rest)
      (loadLine host loadKeys currentKeysFileName line state)

/-- The input stream on a name: a file by its number, or a directory, which can be opened but
not read. -/
def openKeys (sys : System) (name : Str) : Except Errno (Option Nat) :=
  match sys.stat name with
  | .error errno => .error errno
  | .ok (.file inode readable) => if readable then .ok (some inode) else .error .eacces
  | .ok (.dir readable _ _) => if readable then .ok none else .error .eacces
  | .ok (.link _) => .error .eloop

def getcwd (sys : System) : Str :=
  '/' :: List.intercalate ['/'] sys.cwd

def cannotOpen (sys : System) (keysFileName : Str) (errno : Errno) : Str :=
  "Cannot open configuration file '".toList ++ keysFileName ++ "': ".toList
    ++ (strerror errno).toList ++ ".\nThe current working directory is ".toList ++ getcwd sys

/-- The calls of `getline` until the end of the file. -/
def lines (contents : Str) : List Str :=
  contents.splitOn '\n'

/-- `none` when the fuel, the depth of the calls that is allowed for, is used up. -/
def loadKeys (host : Host) : Nat → Str → State → Option Outcome
  | 0, _, _ => none
  | fuel + 1, keysFileName, state =>
    match openKeys host.sys keysFileName with
    | .error errno => some (.thrown (cannotOpen host.sys keysFileName errno) state)
    -- reading fails without the end of the file being seen, and the loop asks only for that
    | .ok none => none
    | .ok (some inode) =>
      loadLines host (loadKeys host fuel) keysFileName (lines (host.contents inode))
        { state with
          loaded := keysFileName :: state.loaded
          applied := state.applied ++ [keysFileName] }

section

def lineFiles (host : Host) (currentKeysFileName line : Str) : Except Str (List Str) :=
  match breakPair line with
  | .error message => .error message
  | .ok none => .ok []
  | .ok (some pair) =>
    if pair.key = besIncludeKey then includeFiles host currentKeysFileName pair.value else .ok []

def linesFiles (host : Host) (currentKeysFileName : Str) : List Str → List Str × Bool
  | [] => ([], true)
  | line :: rest =>
    match lineFiles host currentKeysFileName line with
    | .error _ => ([], false)
    | .ok files =>
      let after := linesFiles host currentKeysFileName rest
      (files ++ after.1, after.2)

def includeGraph (host : Host) (name : Str) : Visit Str :=
  match openKeys host.sys name with
  | .error _ => .refused
  | .ok none => .endless
  | .ok (some inode) =>
    let files := linesFiles host name (lines (host.contents inode))
    .calls files.1 files.2

def State.marks (state : State) : Marks Str where
  marked := state.loaded
  entered := state.applied

def Outcome.marks : Outcome → Bool × Marks Str
  | .done state => (true, state.marks)
  | .thrown _ state => (false, state.marks)

variable {host : Host} {loadKeys : Str → State → Option Outcome}
  {enter : Str → Marks Str → Option (Bool × Marks Str)} {current : Str}

theorem map_andThen (restMarks : Marks Str → Option (Bool × Marks Str))
    (hrest : ∀ state, (rest state).map Outcome.marks = restMarks state.marks)
    (before : Option Outcome) : (Outcome.andThen rest before).map Outcome.marks
      = andThen restMarks (before.map Outcome.marks) := by
  match before with
  | none => rfl
  | some (.done state) => exact hrest state
  | some (.thrown message state) => rfl

section

variable (hload : ∀ file state, (loadKeys file state).map Outcome.marks = enter file state.marks)

include hload

theorem map_loadFiles (files : List Str) (state : State) :
    (loadFiles loadKeys files state).map Outcome.marks = visitAll enter files state.marks := by
  induction files generalizing state with
  | nil => rfl
  | cons file files ih =>
    rw [loadFiles, map_andThen (visitAll enter files) ih, loadIncludeFile, visitAll]
    by_cases hloa : file ∈ state.loaded
    · rw [if_pos hloa, if_pos (show file ∈ state.marks.marked from hloa)]
      rfl
    · rw [if_neg hloa, if_neg (show file ∉ state.marks.marked from hloa), hload]
      rfl

theorem map_loadLine (line : Str) (state : State) :
    (loadLine host loadKeys current line state).map Outcome.marks
      = match lineFiles host current line with
        | .error _ => some (false, state.marks)
        | .ok files => visitAll enter files state.marks := by
  rw [loadLine, lineFiles]
  cases breakPair line with
  | error message => rfl
  | ok pair =>
    cases pair with
    | none => rfl
    | some pair =>
      dsimp only
      by_cases hkey : pair.key = besIncludeKey
      · rw [if_pos hkey, if_pos hkey, loadIncludeFiles]
        cases includeFiles host current pair.value with
        | error message => rfl
        | ok files => exact map_loadFiles hload files _
      · rw [if_neg hkey, if_neg hkey]
        rfl

theorem map_loadLines (text : List Str) (state : State) :
    (loadLines host loadKeys current text state).map Outcome.marks
      = andThen (fun marks => some ((linesFiles host current text).2, marks))
        (visitAll enter (linesFiles host current text).1 state.marks) := by
  induction text generalizing state with
  | nil => rfl
  | cons line text ih =>
    rw [loadLines, map_andThen (fun marks =>
        andThen (fun marks => some ((linesFiles host current text).2, marks))
          (visitAll enter (linesFiles host current text).1 marks)) ih,
      map_loadLine hload, linesFiles]
    cases lineFiles host current line with
    | error message => rfl
    | ok files =>
      dsimp only
      rw [visitAll_append]
      match visitAll enter files state.marks with
      | none => rfl
      | some (true, marks) => rfl
      | some (false, marks) => rfl

end

theorem map_loadKeys (host : Host) (fuel : Nat) (name : Str) (state : State) :
    (LoadKeys.loadKeys host fuel name state).map Outcome.marks
      = visit (includeGraph host) fuel name state.marks := by
  induction fuel generalizing name state with
  | zero => rfl
  | succ fuel ih =>
    rw [LoadKeys.loadKeys, visit, includeGraph]
    cases openKeys host.sys name with
    | error errno => rfl
    | ok opened =>
      cases opened with
      | none => rfl
      | some inode => exact map_loadLines ih (lines (host.contents inode)) _

end

section

variable {host : Host} {name : Str}

def physicalFile (host : Host) (name : Str) : Option Nat :=
  match openKeys host.sys name with
  | .ok inode => inode
  | .error _ => none

def LoadsOnce (host : Host) (main : Str) (keystore : Keystore) : Prop :=
  ∃ fuel outcome, loadKeys host fuel main (.start keystore) = some outcome
    ∧ (outcome.state.applied.map (physicalFile host)).Nodup

/-- The name is met before anything fails. -/
abbrev Meets (host : Host) (main name : Str) : Prop :=
  Met (includeGraph host) [] main name

/-- Each file that can be opened is met under one name. -/
structure OneName (host : Host) (main : Str) : Prop where
  not_directory : openKeys host.sys main ≠ .ok none
  unique : ∀ first second inode, Meets host main first → Meets host main second →
    openKeys host.sys first = .ok (some inode) → openKeys host.sys second = .ok (some inode) →
    first = second

def NotDirectory (host : Host) (name : Str) : Prop :=
  ∃ node, host.sys.stat name = .ok node ∧ node.isDir = false

theorem listFiles_notDirectory (hlast : listFiles host dirName fileExpr entries = .ok files) :
    ∀ file ∈ files, NotDirectory host file.getFullPath := by
  induction entries generalizing files with
  | nil =>
    cases hlast
    simp
  | cons dirEntry rest ih =>
    -- the file is put in front of the list of the files in the rest
    have hcns : ∀ node, host.sys.stat (dirName ++ '/' :: dirEntry) = .ok node →
        node.isDir = false →
        (listFiles host dirName fileExpr rest).map (⟨dirName, dirEntry⟩ :: ·) = .ok files →
        ∀ file ∈ files, NotDirectory host file.getFullPath := by
      intro node hstt hdir hmap
      cases hrest : listFiles host dirName fileExpr rest with
      | error message => rw [hrest] at hmap; contradiction
      | ok others =>
        rw [hrest] at hmap
        cases hmap
        exact List.forall_mem_cons.mpr ⟨⟨node, hstt, hdir⟩, ih hrest⟩
    rw [listFiles] at hlast
    split at hlast
    · exact ih hlast
    · split at hlast
      · exact ih hlast
      next node hstt =>
        split at hlast
        · exact ih hlast
        next hdir =>
          split at hlast
          · exact hcns node hstt (by simpa using hdir) hlast
          · split at hlast
            · contradiction
            · split at hlast
              · exact hcns node hstt (by simpa using hdir) hlast
              · exact ih hlast

theorem includeFiles_notDirectory (hinc : includeFiles host current fileExpr = .ok files) :
    ∀ file ∈ files, NotDirectory host file := by
  unfold includeFiles loadDir at hinc
  cases hopen : opendir host (newDir current fileExpr) with
  | none => rw [hopen] at hinc; contradiction
  | some entries =>
    rw [hopen] at hinc
    dsimp only at hinc
    cases hlast : listFiles host (newDir current fileExpr) (breakApart fileExpr).fileName entries with
    | error message => rw [hlast] at hinc; contradiction
    | ok listed =>
      rw [hlast] at hinc
      cases hinc
      intro file hfil
      obtain ⟨found, hfound, rfl⟩ := List.mem_map.mp hfil
      exact listFiles_notDirectory hlast found hfound

theorem linesFiles_notDirectory (text : List Str) :
    ∀ file ∈ (linesFiles host current text).1, NotDirectory host file := by
  induction text with
  | nil => simp [linesFiles]
  | cons line text ih =>
    rw [linesFiles]
    cases hline : lineFiles host current line with
    | error message => simp
    | ok files =>
      intro file hfil
      cases List.mem_append.mp hfil with
      | inr hrest => exact ih file hrest
      | inl hfirst =>
        unfold lineFiles at hline
        split at hline
        · contradiction
        · cases hline
          contradiction
        · split at hline
          · exact includeFiles_notDirectory hline file hfirst
          · cases hline
            contradiction

theorem opens_of_openKeys (hopen : openKeys host.sys name = .ok (some inode)) :
    Opens (includeGraph host) name := by
  unfold Opens includeGraph
  rw [hopen]
  exact ⟨_, _, rfl⟩

theorem includeGraph_calls (hgraph : includeGraph host name = .calls next finishes) :
    ∃ inode, openKeys host.sys name = .ok (some inode)
      ∧ linesFiles host name (lines (host.contents inode)) = (next, finishes) := by
  unfold includeGraph at hgraph
  cases hopen : openKeys host.sys name with
  | error errno => rw [hopen] at hgraph; contradiction
  | ok opened =>
    rw [hopen] at hgraph
    cases opened with
    | none => contradiction
    | some inode =>
      cases hgraph
      exact ⟨inode, rfl, rfl⟩

theorem openKeys_ne_directory (hname : NotDirectory host name) : openKeys host.sys name ≠ .ok none := by
  obtain ⟨node, hstt, hdir⟩ := hname
  unfold openKeys
  rw [hstt]
  cases node with
  | file inode readable => cases readable <;> simp
  | dir readable searchable entries => contradiction
  | link target => simp

theorem not_endless_of_meets (hman : openKeys host.sys main ≠ .ok none)
    (hmeets : Meets host main name) : includeGraph host name ≠ .endless := by
  have hopen : openKeys host.sys name ≠ .ok none := by
    cases hmeets.avoiding with
    | refl => exact hman
    | tail _ hleads =>
      obtain ⟨⟨next, finishes, hgraph, hnext⟩, -⟩ := hleads
      obtain ⟨inode, -, hfil⟩ := includeGraph_calls hgraph
      apply openKeys_ne_directory
      apply linesFiles_notDirectory (lines (host.contents inode))
      rw [hfil]
      exact hnext
  unfold includeGraph
  cases hope : openKeys host.sys name with
  | error errno => simp
  | ok opened =>
    cases opened with
    | none => exact absurd hope hopen
    | some inode => simp

theorem mem_inodes_of_openKeys (hopen : openKeys host.sys name = .ok (some inode)) :
    inode ∈ host.sys.fs.inodes := by
  unfold openKeys at hopen
  cases hstt : host.sys.stat name with
  | error errno => rw [hstt] at hopen; contradiction
  | ok node =>
    rw [hstt] at hopen
    obtain ⟨found, -, hnod⟩ := System.stat_ok_iff.mp hstt
    cases node with
    | file inode' readable =>
      cases readable with
      | false => contradiction
      | true =>
        cases hopen
        exact mem_inodes_of_nodeAt hnod
    | dir readable searchable entries => cases readable <;> cases hopen
    | link target => contradiction

theorem physicalFile_eq (hopen : openKeys host.sys name = .ok (some inode)) :
    physicalFile host name = some inode := by
  rw [physicalFile, hopen]

theorem OneName.named (hone : OneName host main) :
    Named (includeGraph host) main (physicalFile host) (host.sys.fs.inodes.map some) where
  mem := by
    rintro name ⟨next, finishes, hcalls⟩
    obtain ⟨inode, hopen, -⟩ := includeGraph_calls hcalls
    rw [physicalFile_eq hopen]
    exact List.mem_map_of_mem (mem_inodes_of_openKeys hopen)
  inj := by
    rintro first second hfirst ⟨next, finishes, hcalls⟩ hsecond ⟨next', finishes', hcalls'⟩ heq
    obtain ⟨inode, hopen, -⟩ := includeGraph_calls hcalls
    obtain ⟨inode', hopen', -⟩ := includeGraph_calls hcalls'
    rw [physicalFile_eq hopen, physicalFile_eq hopen', Option.some.injEq] at heq
    rw [← heq] at hopen'
    exact hone.unique first second inode hfirst hsecond hopen hopen'

theorem visit_of_loadKeys (hload : loadKeys host fuel main (.start keystore) = some outcome) :
    ∃ result, visit (includeGraph host) fuel main .start = some (result, outcome.state.marks) := by
  have hvisit := map_loadKeys host fuel main (.start keystore)
  rw [hload] at hvisit
  cases outcome with
  | done state => exact ⟨true, hvisit.symm⟩
  | thrown message state => exact ⟨false, hvisit.symm⟩

theorem loadsOnce_of_oneName (keystore : Keystore) (hone : OneName host main) :
    LoadsOnce host main keystore := by
  have hready := ready_start (includeGraph host) main
  have hunderway : Underway (includeGraph host) main .start :=
    ⟨sound_start _, fun name hmem => by contradiction⟩
  obtain ⟨result, after, hvisit⟩ : ∃ result after,
      visit (includeGraph host) ((host.sys.fs.inodes.map some).length + 1) main .start
        = some (result, after) :=
    visit_total hone.named (fun name => not_endless_of_meets hone.not_directory) hready hunderway
      (fun _ hmet => hmet) (Nat.lt_succ_self _)
  have hload := map_loadKeys host ((host.sys.fs.inodes.map some).length + 1) main (.start keystore)
  rw [show State.marks (.start keystore) = Marks.start from rfl, hvisit] at hload
  obtain ⟨outcome, hout, -⟩ := Option.map_eq_some_iff.mp hload
  obtain ⟨result', hvisit'⟩ := visit_of_loadKeys hout
  have hafter := hunderway.visit hready (fun _ hmet => hmet) hvisit'
  exact ⟨_, outcome, hout, hone.named.nodup hafter.toSound hafter.met⟩

theorem oneName_of_loadsOnce (honce : LoadsOnce host main keystore) : OneName host main := by
  obtain ⟨fuel, outcome, hload, hnodup⟩ := honce
  obtain ⟨result, hvisit⟩ := visit_of_loadKeys hload
  have hvisited := visit_visited (ready_start (includeGraph host) main) hvisit
  constructor
  · intro hdirectory
    cases fuel with
    | zero => contradiction
    | succ fuel =>
      rw [loadKeys, hdirectory] at hload
      contradiction
  · intro first second inode hfirst hsecond hopen hopen'
    apply List.inj_on_of_nodup_map hnodup (hvisited.complete first hfirst (opens_of_openKeys hopen))
      (hvisited.complete second hsecond (opens_of_openKeys hopen'))
    rw [physicalFile_eq hopen, physicalFile_eq hopen']

end

/-- Loading ends and applies each file once at most exactly if the names met before the first failure
lead to each file by one of them. -/
theorem loadsOnce_iff_oneName (host : Host) (main : Str) (keystore : Keystore) :
    LoadsOnce host main keystore ↔ OneName host main :=
  ⟨oneName_of_loadsOnce, loadsOnce_of_oneName keystore⟩

def selfIncluding : Host where
  sys :=
    { fs := .dir true true [("etc".toList, .dir true true [("bes.conf".toList, .file 1 true)])]
      cwd := ["etc".toList] }
  contents := fun _ => "BES.Include=bes.conf".toList
  regcomp := fun pattern => .ok fun s => if s = pattern then s.length else -1

theorem selfIncluding_visit : visit (includeGraph selfIncluding) 3 "bes.conf".toList .start
    = some (true, ⟨[".//bes.conf".toList, ".//bes.conf".toList, "bes.conf".toList],
      ["bes.conf".toList, ".//bes.conf".toList]⟩) := by
  decide +kernel

theorem selfIncluding_not_loadsOnce :
    ¬ LoadsOnce selfIncluding "bes.conf".toList fun _ => none := by
  rintro ⟨fuel, outcome, hload, hnod⟩
  obtain ⟨result, hvisit⟩ := visit_of_loadKeys hload
  have hsame := (visit_mono (Nat.le_add_right fuel 3) hvisit).symm.trans
    (visit_mono (Nat.le_add_left 3 fuel) selfIncluding_visit)
  have happ : outcome.state.applied = ["bes.conf".toList, ".//bes.conf".toList] := by
    have hmar := congrArg Prod.snd (Option.some.inj hsame)
    exact congrArg Marks.entered hmar
  rw [happ] at hnod
  exact absurd hnod (by decide +kernel)

end Bes.Dispatch.LoadKeys
