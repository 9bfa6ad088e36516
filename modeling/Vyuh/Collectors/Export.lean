import Vyuh.Collectors.Path
import Vyuh.Lib.FMap
import Vyuh.Lib.Step

/-! The export of a static site (`collectors/export.rs`, `collectors/assets.rs`): its pages, one after the
    other, then its assets. What comes of rendering, reading and storing is part of what is given. -/

namespace Vyuh.Collectors

open Lib Lib.StdPath Assets

structure UrlInfo where
  path : List Char
  isStatic : Bool

/-- What comes of creating the directory of a file, and of writing it. -/
inductive Storing | stored | noParent | unwritable
  deriving DecidableEq

/-- A URL with the answer to it, if there is one: its status and its body. -/
structure Page where
  info : UrlInfo
  rendered : Option (ℕ × List UInt8)
  storing : Storing

structure Asset where
  path : List Char
  bytes : Option (List UInt8)
  storing : Storing

inductive Source
  | page (url : List Char)
  | asset (path : List Char)
  deriving DecidableEq

/-- A file that was written. -/
structure Written where
  source : Source
  file : PathBuf
  bytes : List UInt8
  deriving DecidableEq

/-- Files that were written stay when the export fails. -/
abbrev Export (ε : Type) := Step (List Written) ε

section

variable {ε : Type}

/-- A file in a directory that was created before; the directory itself is none. -/
def store (io : PathBuf → ε) (dir file : PathBuf) (storing : Storing) (source : Source)
    (read : Except ε (List UInt8)) : Export ε Unit :=
  match storing with
  | .noParent => Step.fail (io file.dropLast)
  | .unwritable => do
    let _ ← Step.lift read
    Step.fail (io file)
  | .stored => do
    let bytes ← Step.lift read
    if file = dir then Step.fail (io file) else Step.modify (· ++ [⟨source, file, bytes⟩])

end

/-! ### Pages -/

/-- A pattern is what it matches, if it is one. -/
structure StaticExportOptions where
  output : PathBuf
  clean : Bool
  glob : Option (Option (List Char → Bool))

structure StaticExportReport where
  pages : ℕ
  assets : ℕ
  deriving DecidableEq

/-- The pages that are exported, after the output directory was made. -/
def selectPages (options : StaticExportOptions) (prepared : Bool) (urls : List Page) :
    Except StaticExportError (List Page) :=
  if !prepared then .error (.io options.output)
  else
    match options.glob with
    | some none => .error (.invalidExportOptions "invalid glob pattern")
    | some (some matcher) => .ok (urls.filter fun page => page.info.isStatic && matcher page.info.path)
    | none => .ok (urls.filter fun page => page.info.isStatic)

def renderPage (output : PathBuf) (page : Page) : Export StaticExportError Unit := do
  let out ← Step.lift (urlToOutputPath output page.info.path)
  match page.rendered with
  | none => Step.fail (.renderFailed page.info.path)
  | some (status, body) =>
    if status ≠ 200 then Step.fail (.nonSuccess page.info.path status)
    else store .io output out page.storing (.page page.info.path) (.ok body)

abbrev OutputPaths := FMap PathBuf (List Char)

def writePages (output : PathBuf) (outputPaths : OutputPaths) : List Page → Export StaticExportError ℕ
  | [] => pure 0
  | page :: urls => do
    let rel ← Step.lift (urlToRelativePath page.info.path)
    match outputPaths rel with
    | some existing => Step.fail (.duplicateOutputPath existing page.info.path rel)
    | none =>
      renderPage output page
      let pages ← writePages output (outputPaths.insert rel page.info.path) urls
      pure (pages + 1)

def exportPages (options : StaticExportOptions) (prepared : Bool) (urls : List Page) :
    Export StaticExportError ℕ := do
  let pages ← Step.lift (selectPages options prepared urls)
  writePages options.output FMap.empty pages

/-! ### Assets -/

/-- The relative paths of the static pages, when each has its own. -/
def renderedPagePaths (outputPaths : OutputPaths) : List (List Char) → Except StaticExportError OutputPaths
  | [] => .ok outputPaths
  | url :: urls => do
    let rel ← urlToRelativePath url
    match outputPaths rel with
    | some existing => .error (.duplicateOutputPath existing url rel)
    | none => renderedPagePaths (outputPaths.insert rel url) urls

def staticUrls (urls : List UrlInfo) : List (List Char) := (urls.filter UrlInfo.isStatic).map UrlInfo.path

/-- The assets of all silos; of several files for one path the first is copied. -/
def copyAssets (output : PathBuf) (reserved : OutputPaths) (reservedBase : PathBuf) (seen : List PathBuf) :
    List Asset → Export StaticAssetError ℕ
  | [] => pure 0
  | file :: files =>
    match assetRelativePath file.path with
    | .error _ => copyAssets output reserved reservedBase seen files
    | .ok rel =>
      if rel ∈ seen then copyAssets output reserved reservedBase seen files
      else
        match safeJoin output rel with
        | none => Step.fail (.outputEscape (text rel))
        | some dest =>
          if reserved.contains (join reservedBase rel) then
            Step.fail (.pageConflict (join reservedBase rel) (join reservedBase rel))
          else do
            store .io output dest file.storing (.asset file.path)
              (file.bytes.elim (.error (.io (parse file.path))) .ok)
            let copied ← copyAssets output reserved reservedBase (rel :: seen) files
            pure (copied + 1)

def collectAssetsReserved (output : PathBuf) (reserved : OutputPaths) (reservedBase : PathBuf) (prepared : Bool)
    (files : List Asset) : Export StaticAssetError ℕ :=
  if !prepared then Step.fail (.io output) else copyAssets output reserved reservedBase [] files

/-- The directory of the assets in the output. -/
def staticAssetPath (mount : MountPath) : PathBuf := parse (trimStart mount.text)

/-- The URLs are collected a second time for the assets. -/
def exportStatic (options : StaticExportOptions) (mount : MountPath) (prepared : Bool) (urls : List Page)
    (later : List UrlInfo) (assetsPrepared : Bool) (files : List Asset) :
    Export StaticExportError StaticExportReport :=
  if options.glob.isSome && options.clean then
    Step.fail (.invalidExportOptions "--clean cannot be used with --glob")
  else do
    let pages ← exportPages options prepared urls
    if options.glob.isSome then pure ⟨pages, 0⟩
    else
      let rendered ← Step.lift (renderedPagePaths FMap.empty (staticUrls later))
      let copied ← Step.mapError .asset (collectAssetsReserved (join options.output (staticAssetPath mount)) rendered
        (staticAssetPath mount) assetsPrepared files)
      pure ⟨pages, copied⟩

end Vyuh.Collectors
