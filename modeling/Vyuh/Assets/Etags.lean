import Mathlib
import Vyuh.Assets.Variants
import Vyuh.Lib.Coding
import Vyuh.Lib.Run

/-! The ETags of a server that runs (`get_or_compute_etag`). A request reads the bytes of an asset first and
    looks for their ETag later; files change before, between and after. The bytes of a file are read below
    its silo's root, its metadata below the working directory. -/

namespace Vyuh.Assets

open Lib

variable {stat : Bool} {request : AssetRequest} {cache : EtagCache} {files : FileSystem} {served : Served}
  {response : Response}

/-! ### Files -/

/-- An entry of the file system; a directory has no bytes. -/
structure Entry where
  bytes : Option (List UInt8)
  metadata : Metadata
  len_eq : ∀ content, bytes = some content → metadata.len = content.length

abbrev FileSystem := FMap StdPath.PathBuf Entry

/-- Assets that are part of the program, or a directory. -/
inductive Silo
  | embedded (assets : FMap (List Char) (List UInt8))
  | dynamic (root : StdPath.PathBuf)

structure Found where
  bytes : List UInt8
  isEmbedded : Bool

/-- The silos in the order they are searched in, and the working directory of the program. -/
structure AssetDirs where
  silos : List Silo
  workdir : StdPath.PathBuf

namespace AssetDirs

variable (dirs : AssetDirs)

/-- The path as the file system takes it. -/
def absolute (path : StdPath.PathBuf) : StdPath.PathBuf := StdPath.join dirs.workdir path

def getFile (files : FileSystem) (path : List Char) : Option Found :=
  dirs.silos.findSome? fun
    | .embedded assets => (assets path).map (⟨·, true⟩)
    | .dynamic root =>
      ((files (dirs.absolute (StdPath.join root (StdPath.parse path)))).bind Entry.bytes).map (⟨·, false⟩)

/-- The silos now. The metadata of a file is that of its path in the silo, and not of where it was found. -/
def now (files : FileSystem) (stat : Bool) : SiloSet where
  read path := (dirs.getFile files path).map Found.bytes
  embedded path := (dirs.getFile files path).any Found.isEmbedded
  metadata path :=
    if stat then (dirs.getFile files path).bind fun _ =>
      (files (dirs.absolute (StdPath.parse path))).map Entry.metadata
    else none

end AssetDirs

/-! ### The server -/

/-- A request begins by reading, and is answered later, with or without the metadata of its file. -/
inductive Event
  | write (path : StdPath.PathBuf) (entry : Entry)
  | remove (path : StdPath.PathBuf)
  | read (id : ℕ) (request : AssetRequest)
  | answer (id : ℕ) (stat : Bool)

structure Server where
  files : FileSystem
  cache : EtagCache
  pending : FMap ℕ (AssetRequest × Served)

/-- What a client gets, and what it was given from. -/
structure Reply where
  request : AssetRequest
  served : Option Served
  response : Response

def Response.etag : Response → Option String
  | .notModified etag _ => some etag
  | .ok headers _ => headers.etag
  | _ => none

/-- The ETag is the hash of the bytes that are served, and the client's own when they are not sent. -/
structure Reply.Exact [Libraries] (reply : Reply) : Prop where
  etag : ∀ etag, reply.response.etag = some etag →
    ∃ served, reply.served = some served ∧ etag = strongEtag served.bytes
  body : ∀ headers body, reply.response = .ok headers body →
    ∃ served, reply.served = some served ∧ body = if reply.request.method = .head then [] else served.bytes
  notModified : ∀ etag vary, reply.response = .notModified etag vary → ∃ served,
    reply.served = some served ∧ reply.request.ifNoneMatch.map Auth.trim = some (strongEtag served.bytes).toList

section

variable (dirs : AssetDirs)

namespace Server

def exec [Libraries] (conf : ServeConf) (server : Server) : Event → Server × Option Reply
  | .write path entry => ({ server with files := server.files.insert path entry }, none)
  | .remove path => ({ server with files := server.files.remove path }, none)
  | .read id request =>
    match conf.select (dirs.now server.files true) request with
    | .error response => (server, some ⟨request, none, response⟩)
    | .ok served => ({ server with pending := server.pending.insert id (request, served) }, none)
  | .answer id stat =>
    match server.pending id with
    | none => (server, none)
    | some (request, served) =>
      let (response, cache) := conf.answer (dirs.now server.files stat) server.cache request served
      ({ server with cache, pending := server.pending.remove id }, some ⟨request, some served, response⟩)

/-- A step of the server, with what is sent. -/
def Step [Libraries] (conf : ServeConf) (server : Server) (label : Event × Option Reply) (server' : Server) :
    Prop := server.exec dirs conf label.1 = (server', label.2)

end Server

/-- No other bytes have the key of this asset, among the assets and in the cache. -/
structure OwnKey [Libraries] (silos : SiloSet) (cache : EtagCache) (path : List Char) : Prop where
  cached : ∀ key bytes etag, silos.cacheKey path = some key → silos.read path = some bytes →
    cache key = some etag → etag = strongEtag bytes
  shared : ∀ key other, silos.cacheKey path = some key → silos.cacheKey other = some key →
    silos.read other = silos.read path

/-- The asset has another key now, or other bytes. -/
def Touched (before after : SiloSet) (path : List Char) : Prop :=
  after.cacheKey path ≠ before.cacheKey path ∨ after.read path ≠ before.read path

namespace Server

/-- A change gives each asset that it touches a key of its own. -/
def KeptBy [Libraries] (server : Server) (files : FileSystem) : Prop :=
  ∀ path, Touched (dirs.now server.files true) (dirs.now files true) path →
    OwnKey (dirs.now files true) server.cache path

/-- No change gives an asset a key that other bytes have; and no asset changes between its bytes being read
    and its ETag being looked for under a key. -/
def Kept [Libraries] (conf : ServeConf) (server : Server) : Event → Prop
  | .write path entry => server.KeptBy dirs (server.files.insert path entry)
  | .remove path => server.KeptBy dirs (server.files.remove path)
  | .read _ _ => True
  | .answer id stat => ∀ request served, server.pending id = some (request, served) → conf.useEtag = true →
    ((dirs.now server.files stat).cacheKey served.path).isSome →
    (dirs.now server.files stat).read served.path = some served.bytes

def KeptStep [Libraries] (conf : ServeConf) (server : Server) (label : Event × Option Reply) (server' : Server) :
    Prop := server.Kept dirs conf label.1 ∧ server.Step dirs conf label server'

/-- Each asset has a key of its own. -/
def Good [Libraries] (server : Server) : Prop := ∀ path, OwnKey (dirs.now server.files true) server.cache path

end Server

end

theorem fileKey_injective {path path' : List Char} {seconds seconds' len len' : ℕ}
    (h : fileKey path seconds len = fileKey path' seconds' len') :
    path = path' ∧ Nat.toDigits 10 seconds = Nat.toDigits 10 seconds' := by
  have hcolon : ∀ n, ':' ∉ Nat.toDigits 10 n := fun n hmem =>
    absurd (Nat.isDigit_of_mem_toDigits (b := 10) (n := n) (by decide) (by decide) hmem) (by decide)
  rw [fileKey, fileKey, ← List.cons_append, ← List.cons_append, ← List.append_assoc, ← List.append_assoc] at h
  obtain ⟨hfront, -⟩ := append_cons_inj_last (hcolon _) (hcolon _) h
  exact append_cons_inj_last (hcolon _) (hcolon _) hfront

section

variable [Libraries] {dirs : AssetDirs} {conf : ServeConf} {server : Server}

omit [Libraries] in
/-- Without metadata an asset has its own key or none. -/
theorem cacheKey_stat {path key : List Char} (h : (dirs.now files stat).cacheKey path = some key) :
    (dirs.now files true).cacheKey path = some key := by
  cases stat with
  | true => exact h
  | false =>
    rw [SiloSet.cacheKey] at h ⊢
    split at h
    next hembedded => exact (if_pos hembedded).trans h
    next => exact nomatch h

theorem step_write {path : StdPath.PathBuf} {entry : Entry} :
    server.Step dirs conf (.write path entry, none)
      ⟨server.files.insert path entry, server.cache, server.pending⟩ := rfl

theorem step_read {id : ℕ} (h : conf.select (dirs.now server.files true) request = .ok served) :
    server.Step dirs conf (.read id request, none)
      ⟨server.files, server.cache, server.pending.insert id (request, served)⟩ := by
  rw [Server.Step, Server.exec, h]

theorem step_answer {id : ℕ} (hpending : server.pending id = some (request, served))
    (h : conf.answer (dirs.now server.files stat) server.cache request served = (response, cache)) :
    server.Step dirs conf (.answer id stat, some ⟨request, some served, response⟩)
      ⟨server.files, cache, server.pending.remove id⟩ := by
  rw [Server.Step, Server.exec, hpending]
  dsimp only
  rw [h]

/-- A request that is answered while its asset stays as it is. -/
theorem request_kept (id : ℕ) (hselect : conf.select (dirs.now server.files true) request = .ok served)
    (hread : (dirs.now server.files true).read served.path = some served.bytes)
    (hanswer : conf.answer (dirs.now server.files true) server.cache request served = (response, cache)) :
    Run (Server.KeptStep dirs conf) server
      [(.read id request, none), (.answer id true, some ⟨request, some served, response⟩)]
      ⟨server.files, cache, (server.pending.insert id (request, served)).remove id⟩ := by
  refine .cons ⟨trivial, step_read hselect⟩
    (.single ⟨fun _ _ hpending _ _ => ?_, step_answer (FMap.insert_self _ _ _) hanswer⟩)
  cases (FMap.insert_self _ _ _).symm.trans hpending
  exact hread

/-- What changes touch has a key of its own, and what they do not touch keeps it. -/
theorem Server.Good.change (hgood : server.Good dirs) (hkept : server.KeptBy dirs files) :
    Server.Good dirs { server with files := files } := by
  intro path
  by_cases htouched : Touched (dirs.now server.files true) (dirs.now files true) path
  · exact hkept path htouched
  obtain ⟨hkey, hread⟩ := not_or.mp htouched
  rw [not_not] at hkey hread
  have hown := hgood path
  refine ⟨fun key bytes etag hpath hbytes => ?_, fun key other hpath hother => ?_⟩
  · exact hown.cached key bytes etag (hkey ▸ hpath) (hread ▸ hbytes)
  · by_cases htouched' : Touched (dirs.now server.files true) (dirs.now files true) other
    · exact ((hkept other htouched').shared key path hother hpath).symm
    · obtain ⟨hkey', hread'⟩ := not_or.mp htouched'
      rw [not_not] at hkey' hread'
      rw [hread, hread']
      exact hown.shared key other (hkey ▸ hpath) (hkey' ▸ hother)

/-- An ETag is the hash of the bytes, if they are still there when a key is looked under; and it is cached
    under the key of these bytes only. -/
theorem getOrComputeEtag_exact (hgood : server.Good dirs) {path : List Char} {bytes : List UInt8}
    (hread : ((dirs.now server.files stat).cacheKey path).isSome →
      (dirs.now server.files stat).read path = some bytes) {etag : String}
    (h : getOrComputeEtag server.cache path bytes (dirs.now server.files stat) = (etag, cache))
    (pending : FMap ℕ (AssetRequest × Served)) :
    etag = strongEtag bytes ∧ Server.Good dirs { server with cache := cache, pending := pending } := by
  rw [getOrComputeEtag] at h
  cases hkey : (dirs.now server.files stat).cacheKey path with
  | none =>
    rw [hkey] at h
    cases h
    exact ⟨rfl, hgood⟩
  | some key =>
    replace hread := hread (Option.isSome_of_eq_some hkey)
    rw [hkey] at h
    dsimp only at h
    cases hcached : server.cache key with
    | some cached =>
      rw [hcached] at h
      cases h
      exact ⟨(hgood path).cached key bytes _ (cacheKey_stat hkey) hread hcached, hgood⟩
    | none =>
      rw [hcached] at h
      cases h
      refine ⟨rfl, fun other => ⟨fun key' bytes' etag hother hbytes hetag => ?_, (hgood other).shared⟩⟩
      replace hetag : server.cache.insert key (strongEtag bytes) key' = some etag := hetag
      rw [FMap.insert_apply] at hetag
      split at hetag
      next heq =>
        -- The key is that of the asset whose ETag was looked for, so the bytes are the same.
        have hsame := (hgood other).shared key' path hother (heq ▸ cacheKey_stat hkey)
        rw [← Option.some.inj hetag, Option.some.inj (hbytes.symm.trans (hsame.symm.trans hread))]
      next => exact (hgood other).cached key' bytes' etag hother hbytes hetag

/-- A request that nothing is served for is told no ETag. -/
theorem select_error {silos : SiloSet} (h : conf.select silos request = .error response) :
    response = .methodNotAllowed ∨ response = .notFound := by
  rw [ServeConf.select] at h
  split at h
  next => exact .inl (Except.error.inj h).symm
  next =>
    split at h
    next => exact .inr (Except.error.inj h).symm
    next =>
      split at h
      next => exact .inr (Except.error.inj h).symm
      next => cases h

/-- What is answered when the ETag is right. -/
theorem answer_exact (hgood : server.Good dirs)
    (hread : conf.useEtag = true → ((dirs.now server.files stat).cacheKey served.path).isSome →
      (dirs.now server.files stat).read served.path = some served.bytes)
    (h : conf.answer (dirs.now server.files stat) server.cache request served = (response, cache))
    (pending : FMap ℕ (AssetRequest × Served)) :
    Server.Good dirs { server with cache := cache, pending := pending } ∧
      Reply.Exact ⟨request, some served, response⟩ := by
  rw [ServeConf.answer] at h
  split at h
  next huse =>
    generalize hetag : getOrComputeEtag server.cache served.path served.bytes (dirs.now server.files stat) =
      computed at h
    obtain ⟨etag, cache'⟩ := computed
    obtain ⟨rfl, hgood'⟩ := getOrComputeEtag_exact hgood (hread huse) hetag pending
    dsimp only at h
    split at h
    next hclient =>
      cases h
      refine ⟨hgood', ⟨fun etag h => ?_, fun _ _ h => (by cases h), fun _ _ _ => ?_⟩⟩
      · exact ⟨served, rfl, (Option.some.inj h).symm⟩
      · exact ⟨served, rfl, hclient⟩
    next =>
      cases h
      refine ⟨hgood', ⟨fun etag h => ?_, fun _ _ h => ?_, fun _ _ h => (by cases h)⟩⟩
      · exact ⟨served, rfl, (Option.some.inj h).symm⟩
      · cases h
        exact ⟨served, rfl, rfl⟩
  next =>
    cases h
    refine ⟨hgood, ⟨fun _ h => (by cases h), fun _ _ h => ?_, fun _ _ h => (by cases h)⟩⟩
    cases h
    exact ⟨served, rfl, rfl⟩

/-- A step under the condition keeps what is cached right, and answers with the hash of what it serves. -/
theorem step_exact {server' : Server} {label : Event × Option Reply} (hgood : server.Good dirs)
    (hkept : server.Kept dirs conf label.1) (hstep : server.Step dirs conf label server') :
    server'.Good dirs ∧ ∀ reply, label.2 = some reply → reply.Exact := by
  obtain ⟨event, sent⟩ := label
  cases event with
  | write path entry =>
    cases hstep
    exact ⟨hgood.change hkept, fun _ h => nomatch h⟩
  | remove path =>
    cases hstep
    exact ⟨hgood.change hkept, fun _ h => nomatch h⟩
  | read id request =>
    rw [Server.Step, Server.exec] at hstep
    split at hstep
    next response hselect =>
      cases hstep
      refine ⟨hgood, fun reply h => ?_⟩
      cases h
      rcases select_error hselect with rfl | rfl
      · exact ⟨fun _ h => (nomatch h), fun _ _ h => (nomatch h), fun _ _ h => (nomatch h)⟩
      · exact ⟨fun _ h => (nomatch h), fun _ _ h => (nomatch h), fun _ _ h => (nomatch h)⟩
    next served _ =>
      cases hstep
      exact ⟨hgood, fun _ h => nomatch h⟩
  | answer id stat =>
    rw [Server.Step, Server.exec] at hstep
    split at hstep
    next =>
      cases hstep
      exact ⟨hgood, fun _ h => nomatch h⟩
    next request served hpending =>
      generalize hanswer : conf.answer (dirs.now server.files stat) server.cache request served = answered at hstep
      obtain ⟨response, cache⟩ := answered
      cases hstep
      obtain ⟨hnext, hexact⟩ := answer_exact hgood (hkept request served hpending) hanswer
        (server.pending.remove id)
      refine ⟨hnext, fun reply h => ?_⟩
      cases h
      exact hexact

/-- In every run in which no change gives an asset a key that other bytes have, and no asset changes while it is
    answered, each ETag is the hash of the bytes served with it, and a client is told that nothing changed
    only when its ETag is that hash. -/
theorem etags_are_hashes {files : FileSystem}
    (hkeys : ∀ path, OwnKey (dirs.now files true) FMap.empty path)
    {labels : List (Event × Option Reply)} {server' : Server}
    (hrun : Run (Server.KeptStep dirs conf) ⟨files, FMap.empty, FMap.empty⟩ labels server') :
    ∀ label ∈ labels, ∀ reply, label.2 = some reply → reply.Exact := by
  refine hrun.labels (I := Server.Good dirs) (fun server label server' hgood hstep => ?_) hkeys
  exact step_exact hgood hstep.1 hstep.2

omit [Libraries] in
/-- Where nothing is embedded, a key is that of one path and of one second of modification. -/
theorem cacheKey_dynamic (hdynamic : ∀ silo ∈ dirs.silos, ∃ root, silo = .dynamic root)
    {path key : List Char} (h : (dirs.now files stat).cacheKey path = some key) :
    ∃ metadata, (files (dirs.absolute (StdPath.parse path))).map Entry.metadata = some metadata ∧
      key = fileKey path metadata.seconds metadata.len := by
  replace h := cacheKey_stat h
  have hnot : (dirs.now files true).embedded path = false := by
    rw [AssetDirs.now, ← Bool.not_eq_true, Option.any_eq_true]
    rintro ⟨found, hfound, hembedded⟩
    obtain ⟨silo, hsilo, hget⟩ := List.exists_of_findSome?_eq_some hfound
    obtain ⟨root, rfl⟩ := hdynamic silo hsilo
    obtain ⟨bytes, -, rfl⟩ := Option.map_eq_some_iff.mp hget
    exact nomatch hembedded
  rw [SiloSet.cacheKey, if_neg (by simp [hnot])] at h
  obtain ⟨metadata, hmetadata, rfl⟩ := Option.map_eq_some_iff.mp h
  obtain ⟨_, -, hentry⟩ := Option.bind_eq_some_iff.mp hmetadata
  exact ⟨metadata, hentry, rfl⟩

/-- Then an asset has a key of its own when nothing is cached under it. -/
theorem ownKey_dynamic (hdynamic : ∀ silo ∈ dirs.silos, ∃ root, silo = .dynamic root) {path : List Char}
    (hcache : ∀ key, (dirs.now files true).cacheKey path = some key → cache key = none) :
    OwnKey (dirs.now files true) cache path := by
  refine ⟨fun key bytes etag hkey _ hetag => ?_, fun key other hkey hother => ?_⟩
  · rw [hcache key hkey] at hetag
    exact nomatch hetag
  · obtain ⟨_, -, rfl⟩ := cacheKey_dynamic hdynamic hkey
    obtain ⟨_, -, hkeys⟩ := cacheKey_dynamic hdynamic hother
    rw [(fileKey_injective hkeys).1]

end

/-! ### A file that is written twice -/

/-- A digest that tells all bytes apart. -/
@[reducible] def wholeDigest : Libraries :=
  { fewTypes with blake3 := fun bytes => String.ofList (bytes.map fun byte => Char.ofNat byte.toNat) }

/-- One silo, its root seen from the working directory. -/
def scriptDirs (root : StdPath.PathBuf) : AssetDirs :=
  ⟨[.dynamic root], [.rootDir, .normal "srv".toList]⟩

def scriptFile : StdPath.PathBuf :=
  [.rootDir, .normal "srv".toList, .normal "public".toList, .normal "app.js".toList]

/-- A version of the script, and the second it was written in. -/
def scriptEntry (byte : UInt8) (second : ℕ) : Entry :=
  ⟨some [byte], ⟨some (second * 1000000000), 1⟩, fun _ h => by cases h; rfl⟩

def scriptRequest (ifNoneMatch : Option String) : AssetRequest :=
  ⟨.get, "/app.js".toList, none, ifNoneMatch.map String.toList⟩

def scriptServed (byte : UInt8) : Served := ⟨"public/app.js".toList, [byte], none⟩

/-- The script with the ETag of some bytes. -/
def scriptReply [Libraries] (byte : UInt8) (hashed : List UInt8) : Reply :=
  ⟨scriptRequest none, some (scriptServed byte), .ok ⟨"application/octet-stream", none, some "Accept-Encoding",
    "public, max-age=31536000, immutable", some (strongEtag hashed), 1⟩ [byte]⟩

/-- The script is not sent to a client that has it. -/
def scriptKnown (byte : UInt8) (etag : String) : Reply :=
  ⟨scriptRequest (some etag), some (scriptServed byte), .notModified etag (some "Accept-Encoding")⟩

def oneWrite [Libraries] : List (Event × Option Reply) :=
  [(.write scriptFile (scriptEntry 1 5), none), (.read 0 (scriptRequest none), none),
    (.answer 0 true, some (scriptReply 1 [1]))]

/-- The second version is asked for twice, by a client that has it the second time. -/
def twoRequests [Libraries] : List (Event × Option Reply) :=
  [(.read 1 (scriptRequest none), none), (.answer 1 true, some (scriptReply 2 [2]))] ++
    [(.read 2 (scriptRequest (some "\"\x02\"")), none), (.answer 2 true, some (scriptKnown 2 "\"\x02\""))]

theorem two_writes_are_hashed :
    let _ := wholeDigest
    ∀ label ∈ oneWrite ++ (.write scriptFile (scriptEntry 2 6), none) :: twoRequests,
      ∀ reply, label.2 = some reply → reply.Exact := by
  let _ := wholeDigest
  have hdynamic : ∀ silo ∈ (scriptDirs []).silos, ∃ root, silo = .dynamic root := by simp [scriptDirs]
  let first : FileSystem := FMap.empty.insert scriptFile (scriptEntry 1 5)
  let second : FileSystem := first.insert scriptFile (scriptEntry 2 6)
  let cache : EtagCache := FMap.empty.insert (fileKey "public/app.js".toList 5 1) (strongEtag [1])
  let cache' : EtagCache := cache.insert (fileKey "public/app.js".toList 6 1) (strongEtag [2])
  have hfirst : publicConf.select ((scriptDirs []).now first true) (scriptRequest none) =
      .ok (scriptServed 1) := by decide
  have hsecond : publicConf.select ((scriptDirs []).now second true) (scriptRequest none) =
      .ok (scriptServed 2) := by decide
  have hagain : publicConf.select ((scriptDirs []).now second true) (scriptRequest (some "\"\x02\"")) =
      .ok (scriptServed 2) := by decide
  have hanswer : publicConf.answer ((scriptDirs []).now first true) FMap.empty (scriptRequest none)
      (scriptServed 1) = ((scriptReply 1 [1]).response, cache) := rfl
  have hanswer₂ : publicConf.answer ((scriptDirs []).now second true) cache (scriptRequest none)
      (scriptServed 2) = ((scriptReply 2 [2]).response, cache') := rfl
  have hknown : (scriptRequest (some "\"\x02\"")).ifNoneMatch.map Auth.trim = some (strongEtag [2]).toList := by
    decide
  have hanswer₃ : publicConf.answer ((scriptDirs []).now second true) cache' (scriptRequest (some "\"\x02\""))
      (scriptServed 2) = ((scriptKnown 2 "\"\x02\"").response, cache') := if_pos hknown
  -- The second version has a key of its own: it was written in another second.
  have hkept : ∀ path key, ((scriptDirs []).now second true).cacheKey path = some key → cache key = none := by
    intro path key hkey
    obtain ⟨metadata, hmetadata, rfl⟩ := cacheKey_dynamic hdynamic hkey
    refine FMap.insert_of_ne _ _ fun h => ?_
    obtain ⟨rfl, hseconds⟩ := fileKey_injective h
    cases hmetadata
    exact absurd hseconds (by decide)
  have hfirstRun : Run (Server.KeptStep (scriptDirs []) publicConf) ⟨FMap.empty, FMap.empty, FMap.empty⟩
      oneWrite ⟨first, cache, _⟩ :=
    .cons ⟨fun _ _ => ownKey_dynamic hdynamic fun _ _ => rfl, step_write⟩ (request_kept 0 hfirst rfl hanswer)
  have hsecondRun : ∀ pending, ∃ server, Run (Server.KeptStep (scriptDirs []) publicConf) ⟨second, cache, pending⟩
      twoRequests server := by
    intro pending
    have hnew : Run (Server.KeptStep (scriptDirs []) publicConf) ⟨second, cache, pending⟩
        [(.read 1 (scriptRequest none), none), (.answer 1 true, some (scriptReply 2 [2]))] _ :=
      request_kept 1 hsecond rfl hanswer₂
    have hboth := hnew.append (request_kept 2 hagain rfl hanswer₃)
    exact ⟨_, hboth⟩
  obtain ⟨server, hrest⟩ := hsecondRun _
  exact etags_are_hashes (fun _ => ownKey_dynamic hdynamic fun _ _ => rfl)
    (hfirstRun.append (.cons ⟨fun path _ => ownKey_dynamic hdynamic (hkept path), step_write⟩ hrest))

/-- The second version of a file within a second is served under the ETag of the first, and not sent to a
    client that has the first. -/
theorem rewritten_file_keeps_its_etag :
    let _ := wholeDigest
    (∃ server, Run (Server.Step (scriptDirs []) publicConf) ⟨FMap.empty, FMap.empty, FMap.empty⟩
      (oneWrite ++ [(.write scriptFile (scriptEntry 2 5), none), (.read 1 (scriptRequest none), none),
        (.answer 1 true, some (scriptReply 2 [1])), (.read 2 (scriptRequest (some "\"\x01\"")), none),
        (.answer 2 true, some (scriptKnown 2 "\"\x01\""))])
      server) ∧ strongEtag [1] ≠ strongEtag [2] ∧ strongEtag [1] = "\"\x01\"" := by
  refine ⟨⟨_, .cons rfl (.cons rfl (.cons rfl (.cons rfl (.cons rfl (.cons rfl (.cons rfl (.cons rfl
    (.nil _))))))))⟩, by decide, by decide⟩

end Vyuh.Assets
