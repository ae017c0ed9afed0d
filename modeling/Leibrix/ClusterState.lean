import Leibrix.Outcome
import Leibrix.FileTree

/-! `internal/cluster/server.go`: whether a node starts a new etcd cluster or joins the one
its data directory belongs to. The directory of the write-ahead log is searched by
`WalkDir`, which does not require it to be a directory. -/
namespace Leibrix.ClusterState
open Leibrix.FileTree

inductive Flag where
  -- `embed.ClusterStateFlagNew` and `embed.ClusterStateFlagExisting`
  | new | existing
deriving DecidableEq

def pathText (path : List String) : String := "/" ++ "/".intercalate path

def statErrorText (path : List String) (err : Errno) : String :=
  -- the text of the `PathError` that `Stat` returns
  "stat " ++ pathText path ++ ": " ++ err.text

def visit (dir : List String) : Visit Bool := fun path d err hasFile =>
  match err with
  -- the callback of `hasFilesInDirectory`
  | some err => if path = dir then (hasFile, .fail err) else (hasFile, .skipDir)
  | none => if d.all Node.isDir then (hasFile, .next) else (true, .skipAll)

def hasFilesInDirectory (root : Node) (dir : List String) : Bool :=
  let r := walkDir root dir (visit dir) false
  if r.2.isSome then false else r.1

def hasNonEmptyFile (root : Node) (path : List String) : Bool :=
  match stat root path with
  | .ok (.file size) => 0 < size
  | _ => false

def noDataText (memberDir : List String) : String :=
  "member directory exists but contains no valid etcd data (no WAL files, no snapshot DB). " ++
    "This indicates interrupted initialization or corruption. " ++
    "Please manually remove " ++ pathText memberDir ++ " to re-bootstrap, or restore from backup."

def detectClusterState (root : Node) (dataDir : List String) : Outcome Flag :=
  let memberDir := dataDir ++ ["member"]
  let walDir := memberDir ++ ["wal"]
  let snapDB := memberDir ++ ["snap", "db"]
  match stat root memberDir with
  | .error .notExist => .ok .new
  | .error err => .panic ("failed to access member directory " ++ pathText memberDir ++ ": " ++
      statErrorText memberDir err)
  | .ok member =>
    if !member.isDir then
      .panic ("member path exists but is not a directory: " ++ pathText memberDir)
    else if hasFilesInDirectory root walDir || hasNonEmptyFile root snapDB then .ok .existing
    else .panic (noDataText memberDir)

inductive HasFile : Bool → Node → Prop
  -- A directory with an entry below it that is not a directory, where every directory on the way
  -- can be read. The way to it can be walked if the first argument is true.
  | here {searchable : Bool} {entries : List (String × Node)} {e : String × Node}
      (he : e ∈ entries) (hd : e.2.isDir = false) : HasFile true (.dir true searchable entries)
  | deeper {searchable : Bool} {entries : List (String × Node)} {e : String × Node}
      (he : e ∈ entries) (h : HasFile searchable e.2) : HasFile true (.dir true searchable entries)

theorem hasFile_dir {reached readable searchable : Bool} {entries : List (String × Node)} :
    HasFile reached (.dir readable searchable entries) ↔ reached = true ∧ readable = true ∧
      ∃ e ∈ entries, e.2.isDir = false ∨ HasFile searchable e.2 := by
  constructor
  · intro h
    cases h with
    | here he hd => exact ⟨rfl, rfl, _, he, .inl hd⟩
    | deeper he h => exact ⟨rfl, rfl, _, he, .inr h⟩
  · rintro ⟨rfl, rfl, e, he, hd | h⟩
    · exact .here he hd
    · exact .deeper he h

theorem HasFile.isDir {reached : Bool} {node : Node} (h : HasFile reached node) :
    node.isDir = true := by
  cases h <;> rfl

def Answers (found : Prop) (r : Bool × Verdict) : Prop :=
  -- what the walk makes of something it finds: it stops there exactly if it is a file, or a
  -- directory with a file below it
  found ∧ r = (true, .skipAll) ∨ ¬found ∧ r = (false, .next)

section Walk
variable {dir : List String}

theorem walkEntries_visit {below : List String} {reached : Bool} {entries : List (String × Node)}
    (h : ∀ e ∈ entries, ∀ below, below ≠ [] → Answers (e.2.isDir = false ∨ HasFile reached e.2)
      (walkNode (visit dir) (dir ++ below) reached e.2 false)) :
    Answers (∃ e ∈ entries, e.2.isDir = false ∨ HasFile reached e.2)
      (walkEntries (visit dir) (dir ++ below) reached entries false) := by
  induction entries with
  | nil => exact .inr ⟨by simp, rfl⟩
  | cons e entries ih =>
    obtain ⟨name, node⟩ := e
    have hrest := ih fun e he => h e (List.mem_cons_of_mem _ he)
    have hfirst := h (name, node) List.mem_cons_self (below ++ [name]) (by simp)
    rw [← List.append_assoc] at hfirst
    simp only [walkEntries]
    rcases hfirst with ⟨hfound, hr⟩ | ⟨hnot, hr⟩
    · rw [hr]
      exact .inl ⟨⟨_, List.mem_cons_self, hfound⟩, rfl⟩
    · rw [hr]
      simpa [Answers, hnot] using hrest

theorem visit_leaf {node : Node} (hd : node.isDir = false) (path : List String) (reached : Bool) :
    walkNode (visit dir) path reached node false = (true, .skipAll) := by
  cases node with
  | file | link | other => rfl
  | dir => cases hd

theorem visit_dir (path : List String) (searchable : Bool) (entries : List (String × Node)) :
    walkNode (visit dir) path true (.dir true searchable entries) false =
      walkEntries (visit dir) path searchable entries false := rfl

theorem visit_unreadable {path : List String} {reached readable searchable : Bool}
    {entries : List (String × Node)} (h : (reached && readable) = false) :
    walkNode (visit dir) path reached (.dir readable searchable entries) false =
      (false, if path = dir then .fail .permission else .next) := by
  by_cases hp : path = dir
  · simp [walkNode, visit, skipped, Node.isDir, h, hp]
  · simp [walkNode, visit, skipped, Node.isDir, h, hp]

theorem walkNode_visit (node : Node) : ∀ (reached : Bool) (below : List String), below ≠ [] →
    Answers (node.isDir = false ∨ HasFile reached node)
      (walkNode (visit dir) (dir ++ below) reached node false) := by
  induction node using Node.induct with
  | leaf node hd =>
    intro reached below _
    exact .inl ⟨.inl hd, visit_leaf hd _ _⟩
  | dir readable searchable entries ih =>
    intro reached below hbelow
    rw [show (Node.dir readable searchable entries).isDir = true from rfl, hasFile_dir]
    simp only [Bool.true_eq_false, false_or]
    cases hread : reached && readable with
    | false =>
      rw [visit_unreadable hread, if_neg (by simpa using hbelow)]
      refine .inr ⟨fun h => ?_, rfl⟩
      simp [h.1, h.2.1] at hread
    | true =>
      obtain ⟨rfl, rfl⟩ := (Bool.and_eq_true _ _).mp hread
      rw [visit_dir]
      simpa using walkEntries_visit fun e he => ih e he searchable

/-- The search for files in a directory finds one also if it is a file itself, or a link. -/
theorem hasFilesInDirectory_iff {root : Node} :
    hasFilesInDirectory root dir = true ↔
      ∃ node, lstat root dir = .ok node ∧ (node.isDir = false ∨ HasFile true node) := by
  rw [hasFilesInDirectory, walkDir]
  cases hl : lstat root dir with
  | error err => simp [visit]
  | ok node =>
    simp only [Except.ok.injEq, exists_eq_left']
    cases hd : node.isDir with
    | false => simp [visit_leaf hd]
    | true =>
      cases node with
      | file | link | other => cases hd
      | dir readable searchable entries =>
        rw [hasFile_dir]
        cases readable with
        | false => simp [visit_unreadable]
        | true =>
          rw [visit_dir]
          have hroot : Answers (∃ e ∈ entries, e.2.isDir = false ∨ HasFile searchable e.2)
              (walkEntries (visit dir) (dir ++ []) searchable entries false) :=
            walkEntries_visit fun e _ => walkNode_visit e.2 searchable
          rw [List.append_nil] at hroot
          rcases hroot with ⟨hfound, hr⟩ | ⟨hnot, hr⟩
          · simp [hr, hfound]
          · simp only [hr, hnot]
            simp

end Walk

section Classification
variable (root : Node) (dataDir : List String)

def Missing : Prop := stat root (dataDir ++ ["member"]) = .error .notExist

def HasMember : Prop := ∃ member, stat root (dataDir ++ ["member"]) = .ok member ∧
  member.isDir = true

def HasLog : Prop := ∃ wal, stat root (dataDir ++ ["member", "wal"]) = .ok wal ∧ HasFile true wal

def HasSnapshot : Prop := ∃ size,
  stat root (dataDir ++ ["member", "snap", "db"]) = .ok (.file size) ∧ 0 < size

structure Classified : Prop where
  -- what the three answers ought to mean
  new : detectClusterState root dataDir = .ok .new ↔ Missing root dataDir
  existing : detectClusterState root dataDir = .ok .existing ↔
    HasMember root dataDir ∧ (HasLog root dataDir ∨ HasSnapshot root dataDir)
  corrupt : (∃ msg, detectClusterState root dataDir = .panic msg) ↔
    ¬Missing root dataDir ∧
      ¬(HasMember root dataDir ∧ (HasLog root dataDir ∨ HasSnapshot root dataDir))

-- Something that is not a directory stands in the place of the log.
def Misplaced : Prop := ∃ wal, lstat root (dataDir ++ ["member", "wal"]) = .ok wal ∧
  wal.isDir = false

variable {root dataDir}

theorem hasNonEmptyFile_iff {path : List String} :
    hasNonEmptyFile root path = true ↔ ∃ size, stat root path = .ok (.file size) ∧ 0 < size := by
  unfold hasNonEmptyFile
  split
  · rename_i size hs
    simp [hs]
  · rename_i hs
    refine iff_of_false (by simp) ?_
    rintro ⟨size, hfile, -⟩
    exact hs size hfile

theorem hasFilesInDirectory_wal : hasFilesInDirectory root (dataDir ++ ["member", "wal"]) = true ↔
    HasLog root dataDir ∨ Misplaced root dataDir := by
  have hpart : PartAtLink (stat root _) (lstat root _) := stat_lstat (dataDir ++ ["member", "wal"])
  rw [hasFilesInDirectory_iff]
  constructor
  · rintro ⟨wal, hl, hd | hf⟩
    · exact .inr ⟨wal, hl, hd⟩
    · exact .inl ⟨wal, hpart.same wal hl (Node.isLink_of_isDir hf.isDir), hf⟩
  · rintro (⟨wal, hs, hf⟩ | ⟨wal, hl, hd⟩)
    · obtain ⟨wal', hl⟩ := hpart.found wal hs
      cases hd : wal'.isDir with
      | false => exact ⟨wal', hl, .inl hd⟩
      | true =>
        have heq := hpart.same wal' hl (Node.isLink_of_isDir hd)
        rw [hs] at heq
        cases heq
        exact ⟨wal, hl, .inr hf⟩
    · exact ⟨wal, hl, .inl hd⟩

theorem Missing.not_hasMember (h : Missing root dataDir) : ¬HasMember root dataDir := by
  rintro ⟨member, hs, -⟩
  cases hs.symm.trans h

/-- With a member directory it is the log, or what is taken for it, or the snapshot that
decides. -/
theorem detect_of_hasMember (h : HasMember root dataDir) :
    ((HasLog root dataDir ∨ Misplaced root dataDir) ∨ HasSnapshot root dataDir) ∧
        detectClusterState root dataDir = .ok .existing ∨
      ¬((HasLog root dataDir ∨ Misplaced root dataDir) ∨ HasSnapshot root dataDir) ∧
        ∃ msg, detectClusterState root dataDir = .panic msg := by
  have hsnapshot : hasNonEmptyFile root (dataDir ++ ["member", "snap", "db"]) = true ↔
      HasSnapshot root dataDir := hasNonEmptyFile_iff
  obtain ⟨member, hs, hd⟩ := h
  rw [← hasFilesInDirectory_wal, ← hsnapshot, ← Bool.or_eq_true]
  cases hfound : hasFilesInDirectory root (dataDir ++ ["member", "wal"]) ||
      hasNonEmptyFile root (dataDir ++ ["member", "snap", "db"]) with
  | true => exact .inl ⟨rfl, by simp [detectClusterState, hs, hd, hfound]⟩
  | false => exact .inr ⟨by simp, by simp [detectClusterState, hs, hd, hfound]⟩

theorem detect_of_neither (hmissing : ¬Missing root dataDir) (hmember : ¬HasMember root dataDir) :
    ∃ msg, detectClusterState root dataDir = .panic msg := by
  cases hs : stat root (dataDir ++ ["member"]) with
  | error err =>
    cases err with
    | notExist => exact absurd hs hmissing
    | notDir | permission | loop => simp [detectClusterState, hs]
  | ok member =>
    have hd : member.isDir = false := by
      cases hd : member.isDir with
      | false => rfl
      | true => exact absurd ⟨member, hs, hd⟩ hmember
    simp [detectClusterState, hs, hd]

/-- The answers mean what they ought to unless, in a member directory without a log and
without a snapshot, something that is not a directory stands in the log's place. -/
theorem classified_iff (root : Node) (dataDir : List String) :
    Classified root dataDir ↔
      ¬(HasMember root dataDir ∧ Misplaced root dataDir ∧
        ¬HasLog root dataDir ∧ ¬HasSnapshot root dataDir) := by
  by_cases hmissing : Missing root dataDir
  · have hmember := hmissing.not_hasMember
    have hs : stat root (dataDir ++ ["member"]) = .error .notExist := hmissing
    have hdetect : detectClusterState root dataDir = .ok .new := by
      simp [detectClusterState, hs]
    refine iff_of_true ⟨?_, ?_, ?_⟩ fun h => hmember h.1
    all_goals simp [hdetect, hmissing, hmember]
  · by_cases hmember : HasMember root dataDir
    · rcases detect_of_hasMember hmember with ⟨hfound, hdetect⟩ | ⟨hnone, msg, hdetect⟩
      · constructor
        · intro h hmasked
          have hdata := (h.existing.mp hdetect).2
          exact hdata.elim hmasked.2.2.1 hmasked.2.2.2
        · intro h
          have hdata : HasLog root dataDir ∨ HasSnapshot root dataDir := by tauto
          refine ⟨?_, ?_, ?_⟩
          all_goals simp [hdetect, hmissing, hmember, hdata]
      · have hdata : ¬(HasLog root dataDir ∨ HasSnapshot root dataDir) := by tauto
        refine iff_of_true ⟨?_, ?_, ?_⟩ (by tauto)
        all_goals simp [hdetect, hmissing, hdata]
    · obtain ⟨msg, hdetect⟩ := detect_of_neither hmissing hmember
      refine iff_of_true ⟨?_, ?_, ?_⟩ fun h => hmember h.1
      all_goals simp [hdetect, hmissing, hmember]

def walFile : Node :=
  .dir true true [("data", .dir true true [("member", .dir true true [("wal", .file 0)])])]

theorem existing_without_data :
    detectClusterState walFile ["data"] = .ok .existing ∧
      ¬HasLog walFile ["data"] ∧ ¬HasSnapshot walFile ["data"] := by
  have hwal : stat walFile ["data", "member", "wal"] = .ok (.file 0) := rfl
  have hsnap : stat walFile ["data", "member", "snap", "db"] = .error .notExist := rfl
  refine ⟨rfl, ?_, ?_⟩
  · rintro ⟨wal, hs, hf⟩
    cases hwal.symm.trans hs
    cases hf
  · rintro ⟨size, hs, -⟩
    cases hsnap.symm.trans hs

end Classification
end Leibrix.ClusterState
