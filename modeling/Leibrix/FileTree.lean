import Mathlib.Data.List.Basic

/-! Trees of directories, files and symbolic links, the lookup of paths in them, and the walk
of Go's `filepath.WalkDir`. Nothing changes while a tree is looked at, and the only obstacles
are permissions, links that go round and components that are not directories. -/
namespace Leibrix.FileTree

inductive Errno where
  | notExist | notDir | permission | loop
deriving DecidableEq

def Errno.text : Errno → String
  | .notExist => "no such file or directory"
  | .notDir => "not a directory"
  | .permission => "permission denied"
  | .loop => "too many levels of symbolic links"

inductive Node where
  -- A directory may be read (its entries are listed, in the order of their names) and searched
  -- (they are looked up). The target of a link starts at the root or at the link.
  | file (size : Nat)
  | link (absolute : Bool) (target : List String)
  -- a pipe, a socket or a device
  | other
  | dir (readable searchable : Bool) (entries : List (String × Node))

namespace Node

def isDir : Node → Bool
  | .dir _ _ _ => true
  | _ => false

def isLink : Node → Bool
  | .link _ _ => true
  | _ => false

theorem isLink_of_isDir {node : Node} (h : node.isDir = true) : node.isLink = false := by
  cases node with
  | dir => rfl
  | file | link | other => cases h

/-- Induction over a tree, with all entries of a directory at once. -/
theorem induct {P : Node → Prop} (leaf : ∀ node, node.isDir = false → P node)
    (dir : ∀ readable searchable entries, (∀ e ∈ entries, P e.2) →
      P (.dir readable searchable entries)) (node : Node) : P node := by
  refine @Node.rec P (fun entries => ∀ e ∈ entries, P e.2) (fun e => P e.2)
    (fun _ => leaf _ rfl) (fun _ _ => leaf _ rfl) (leaf _ rfl) dir ?_ ?_ ?_ node
  · intro e he
    cases he
  · intro e entries he hentries e' he'
    rcases List.mem_cons.mp he' with rfl | he'
    · exact he
    · exact hentries e' he'
  · intro name node h
    exact h

end Node

section Lookup
variable (root : Node)

def resolveWith (follow : Node → List Node → List String → Except Errno Node) (keepLink : Bool)
    (cur : Node) (parents : List Node) : List String → Except Errno Node
  -- Follow a path from the directory `cur`, whose ancestors are `parents`. What a link leads to is
  -- left to `follow`; the link at the end of a path is not followed by `lstat`.
  | [] => .ok cur
  | name :: rest =>
    match cur with
    | .dir _ searchable entries =>
      if !searchable then .error .permission
      else if name = "." then resolveWith follow keepLink cur parents rest
      else if name = ".." then
        resolveWith follow keepLink (parents.headD cur) parents.tail rest
      else
        match entries.lookup name with
        | none => .error .notExist
        | some (.link absolute target) =>
          if keepLink && rest.isEmpty then .ok (.link absolute target)
          else if absolute then follow root [] (target ++ rest)
          else follow cur parents (target ++ rest)
        | some node => resolveWith follow keepLink node (cur :: parents) rest
    | _ => .error .notDir

def resolve (keepLink : Bool) : Nat → Node → List Node → List String → Except Errno Node
  | 0 => resolveWith root (fun _ _ _ => .error .loop) keepLink
  | links + 1 => resolveWith root (resolve keepLink links) keepLink

def stat (path : List String) : Except Errno Node := resolve root false 40 root [] path

def lstat (path : List String) : Except Errno Node := resolve root true 40 root [] path

structure PartAtLink (followed kept : Except Errno Node) : Prop where
  same : ∀ node, kept = .ok node → node.isLink = false → followed = .ok node
  found : ∀ node, followed = .ok node → ∃ node', kept = .ok node'

theorem PartAtLink.refl (found : Except Errno Node) : PartAtLink found found :=
  ⟨fun _ h _ => h, fun node h => ⟨node, h⟩⟩

variable {root}

theorem resolveWith_partAtLink {follow follow' : Node → List Node → List String → Except Errno Node}
    (h : ∀ cur parents path, PartAtLink (follow cur parents path) (follow' cur parents path))
    (cur : Node) (parents : List Node) (path : List String) :
    PartAtLink (resolveWith root follow false cur parents path)
      (resolveWith root follow' true cur parents path) := by
  induction path generalizing cur parents with
  | nil => exact .refl _
  | cons name rest ih =>
    cases cur with
    | file | link | other => exact .refl _
    | dir readable searchable entries =>
      simp only [resolveWith]
      cases searchable with
      | false => exact .refl _
      | true =>
        simp only [Bool.not_true, Bool.false_eq_true, if_false]
        split
        · exact ih _ _
        · split
          · exact ih _ _
          · cases entries.lookup name with
            | none => exact .refl _
            | some node =>
              cases node with
              | file | other | dir => exact ih _ _
              | link absolute target =>
                by_cases hrest : rest.isEmpty = true
                · simp only [hrest, Bool.and_self, if_true]
                  refine ⟨fun node hkept hlink => ?_, fun node _ => ⟨_, rfl⟩⟩
                  cases hkept
                  cases hlink
                · simp only [hrest, Bool.and_false, Bool.false_eq_true, if_false]
                  split
                  · exact h _ _ _
                  · exact h _ _ _

theorem resolve_partAtLink (links : Nat) (cur : Node) (parents : List Node) (path : List String) :
    PartAtLink (resolve root false links cur parents path)
      (resolve root true links cur parents path) := by
  induction links generalizing cur parents path with
  | zero => exact resolveWith_partAtLink (fun _ _ _ => .refl _) cur parents path
  | succ links ih => exact resolveWith_partAtLink ih cur parents path

theorem stat_lstat (path : List String) : PartAtLink (stat root path) (lstat root path) :=
  resolve_partAtLink 40 root [] path

end Lookup

section Walk
variable {σ : Type}

inductive Verdict where
  | next | skipDir | skipAll
  | fail (err : Errno)
deriving DecidableEq

-- The callback: a path, what is there, and an error in getting at it. It may change `σ`.
abbrev Visit (σ : Type) := List String → Option Node → Option Errno → σ → σ × Verdict

def skipped (r : σ × Verdict) : σ × Verdict := (r.1, if r.2 = .skipDir then .next else r.2)

mutual

def walkNode (fn : Visit σ) (path : List String) (reached : Bool) : Node → σ → σ × Verdict
  -- `walkDir`, for what is at `path`; `reached` tells whether the directories on the way can be
  -- searched. A directory that cannot be read is visited again with the error.
  | .dir readable searchable entries, s =>
    let r := fn path (some (.dir readable searchable entries)) none s
    if r.2 ≠ .next then skipped r
    else if reached && readable then walkEntries fn path searchable entries r.1
    else skipped (fn path (some (.dir readable searchable entries)) (some .permission) r.1)
  | node, s => fn path (some node) none s

def walkEntries (fn : Visit σ) (path : List String) (reached : Bool) :
    List (String × Node) → σ → σ × Verdict
  | [], s => (s, .next)
  | (name, node) :: rest, s =>
    let r := walkNode fn (path ++ [name]) reached node s
    match r.2 with
    | .next => walkEntries fn path reached rest r.1
    | .skipDir => (r.1, .next)
    | verdict => (r.1, verdict)

end

def walkDir (root : Node) (path : List String) (fn : Visit σ) (s : σ) : σ × Option Errno :=
  -- `filepath.WalkDir`: what the callback has made of `s`, and the error. The root of the walk is
  -- looked up by `Lstat`.
  let r := match lstat root path with
    | .error err => fn path none (some err) s
    | .ok node => walkNode fn path true node s
  (r.1, match r.2 with
    | .fail err => some err
    | _ => none)

end Walk
end Leibrix.FileTree
