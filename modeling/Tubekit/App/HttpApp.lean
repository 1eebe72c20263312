import Tubekit.Http.Target
import Tubekit.Lib.LexicalPath
import Tubekit.Task.HttpTask
import Tubekit.Task.WebsocketTask
import Tubekit.Utility.Url

/-!
# `http_app`

The `process_callback` of `http_app`, as far as it goes to the file system: the target is decoded,
refused if it has two dots in a row, and appended to `http_static_dir`. The file system answers
from outside. What is sent for a directory is the subject of `DirectoryListing`.

`static_files_inside_iff` says for which targets this stays inside of `http_static_dir`. There is
nothing between the directory and the target, so a target that does not begin with a slash becomes
part of the last name of the directory.
-/

namespace Tubekit.HttpApp

open Lib LexicalPath

/-- What the system sees of a `std::string`: the text up to its first zero. -/
def cString (text : Bytes) : Bytes := text.takeWhile (· ≠ 0)

inductive FileStatus where
  | notFound
  | regular
  | directory
  | other
  /-- `fs::status` throws. -/
  | fails
  deriving DecidableEq

/-- What comes from outside: the state of the file system, and whether memory is allocated. -/
structure Files where
  status : Bytes → FileStatus
  opens : Bytes → Bool
  newResponse : Bool
  newList : Bool

inductive FileCall where
  | fileExists
  | isRegularFile
  | isDirectory
  | fopen
  | directoryIterator
  deriving DecidableEq

/-- A call to the file system with the path it gets. -/
structure FileAccess where
  call : FileCall
  path : Bytes
  deriving DecidableEq

inductive Answer where
  | responseEnd
  | file
  | directory
  | notFound
  | throws
  deriving DecidableEq

/-- `process_callback`, for a connection with this `url`. -/
def processCallback (files : Files) (httpStaticDir url : Bytes) : List FileAccess × Answer :=
  let url := Url.decode url
  if ascii ".." <:+: url then ([], .responseEnd)
  else
    let path := cString (httpStaticDir ++ url)
    let access (call : FileCall) : FileAccess := ⟨call, path⟩
    match files.status path with
    | .fails => ([access .fileExists], .throws)
    | .notFound => ([access .fileExists, access .fileExists], .notFound)
    | .regular =>
      let looked := [access .fileExists, access .isRegularFile]
      if files.newResponse then
        (looked ++ [access .fopen], if files.opens path then .file else .responseEnd)
      else (looked, .responseEnd)
    | .directory =>
      let looked :=
        [access .fileExists, access .isRegularFile, access .fileExists, access .isDirectory]
      if files.newResponse && files.newList then (looked ++ [access .directoryIterator], .directory)
      else (looked, .responseEnd)
    | .other =>
      ([access .fileExists, access .isRegularFile, access .fileExists, access .isDirectory], .notFound)

/-- `/` and `.`. -/
def pathSigns : Signs Byte := { slash := 47, dot := 46, ne := by decide }

/-- Every path that goes to the file system is `http_static_dir` or lies below it. -/
def Inside (httpStaticDir : Bytes) (accesses : List FileAccess) : Prop :=
  ∀ access ∈ accesses, pathSigns.Below (cString httpStaticDir) access.path

/-- A target that is not refused goes to the file system with one path. -/
theorem processCallback_path (files : Files) (httpStaticDir : Bytes) {url : Bytes}
    (hurl : ¬ascii ".." <:+: Url.decode url) :
    (∀ access ∈ (processCallback files httpStaticDir url).1,
      access.path = cString (httpStaticDir ++ Url.decode url)) ∧
    ⟨.fileExists, cString (httpStaticDir ++ Url.decode url)⟩ ∈
      (processCallback files httpStaticDir url).1 := by
  simp only [processCallback, if_neg hurl]
  split
  · simp
  · simp
  · split <;> simp
  · split <;> simp
  · simp

theorem cString_append (dir more : Bytes) :
    cString (dir ++ more) = if 0 ∈ dir then cString dir else dir ++ cString more := by
  unfold cString
  split
  · next hzero =>
    induction dir with
    | nil => cases hzero
    | cons b dir ih =>
      by_cases hb : b = 0
      · simp [hb]
      · have hdir : 0 ∈ dir := by simpa [Ne.symm hb] using hzero
        simpa [hb] using ih hdir
  · next hzero =>
    refine List.takeWhile_append_of_pos fun b hb => ?_
    simp only [ne_eq, decide_not, Bool.not_eq_true', decide_eq_false_iff_not]
    rintro rfl
    exact hzero hb

/-- **Static files.** For every directory and every target, whatever the file system answers: all
that `process_callback` asks for lies inside of the directory exactly when the target is refused,
the directory has a zero in its text, or the decoded target up to its first zero joins the
directory. -/
theorem static_files_inside_iff (files : Files) (httpStaticDir url : Bytes) :
    Inside httpStaticDir (processCallback files httpStaticDir url).1 ↔
      ascii ".." <:+: Url.decode url ∨ 0 ∈ httpStaticDir ∨
        pathSigns.Joins httpStaticDir (cString (Url.decode url)) := by
  by_cases hurl : ascii ".." <:+: Url.decode url
  · simp [processCallback, Inside, hurl]
  obtain ⟨hpath, hexists⟩ := processCallback_path files httpStaticDir hurl
  have hbelow : Inside httpStaticDir (processCallback files httpStaticDir url).1 ↔
      pathSigns.Below (cString httpStaticDir) (cString (httpStaticDir ++ Url.decode url)) :=
    ⟨fun h => h _ hexists, fun h access haccess => hpath access haccess ▸ h⟩
  rw [hbelow, cString_append]
  by_cases hzero : 0 ∈ httpStaticDir
  · simp only [hzero, if_true, true_or, or_true, iff_true]
    exact pathSigns.below_refl _
  · have hdir : cString httpStaticDir = httpStaticDir := by
      have hnil : cString [] = [] := rfl
      have happend := cString_append httpStaticDir []
      rwa [List.append_nil, if_neg hzero, hnil, List.append_nil] at happend
    have hmore : ¬pathSigns.parent <:+: cString (Url.decode url) := fun h =>
      hurl (h.trans (List.takeWhile_prefix _).isInfix)
    rw [if_neg hzero, hdir, Signs.below_append_iff _ hmore]
    simp [hurl, hzero]

/-- A file system in which there is nothing. -/
def emptyFiles : Files :=
  { status := fun _ => .notFound, opens := fun _ => false, newResponse := true, newList := true }

/-- A target that the parser accepts, and with which another directory is looked up. -/
theorem static_file_outside :
    acceptsTarget false (ascii "*x") = true ∧
      ¬Inside (ascii "/srv/www")
        (processCallback emptyFiles (ascii "/srv/www") (ascii "*x")).1 := by
  refine ⟨by decide +kernel, fun hinside => ?_⟩
  have haccess : ⟨.fileExists, ascii "/srv/www*x"⟩ ∈
      (processCallback emptyFiles (ascii "/srv/www") (ascii "*x")).1 := by decide +kernel
  obtain ⟨-, rest, hnames, -⟩ := hinside _ haccess
  have hdir : pathSigns.names (cString (ascii "/srv/www")) = [ascii "srv", ascii "www"] := by
    decide +kernel
  have hpath : pathSigns.names (ascii "/srv/www*x") = [ascii "srv", ascii "www*x"] := by
    decide +kernel
  rw [hdir, hpath] at hnames
  have hname : ascii "www*x" = ascii "www" := (List.cons.inj (List.cons.inj hnames).2).1
  exact absurd hname (by decide +kernel)

end Tubekit.HttpApp
