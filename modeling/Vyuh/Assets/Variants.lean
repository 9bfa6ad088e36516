import Vyuh.Assets.Serve
import Vyuh.Auth.Location
import Vyuh.Lib.FMap
import Vyuh.Lib.StdPath

/-! The answer to a request for an asset (`assets.rs`). With compression on, the variant that is read is one
    that the client accepts and that is stored; its path is what the headers are made from. -/

namespace Vyuh.Assets

open Lib

/-- A quality as far as `allows` looks at it: below zero or no number, zero, above zero. -/
inductive Quality
  | unset
  | refused
  | allowed
  deriving DecidableEq

/-- `str::parse::<f32>`, the first type `mime_guess` has for an extension, and BLAKE3 in hexadecimal. -/
class Libraries where
  parseQuality : List Char → Option Quality
  mimeOf : List Char → Option String
  blake3 : List UInt8 → String

/-! ### Accept-Encoding -/

structure AcceptEncoding where
  br : Quality
  gzip : Quality
  star : Quality
  deriving DecidableEq

section

variable [Libraries]

/-- One part of the header, with the last of its qualities. -/
def AcceptEncoding.add (ae : AcceptEncoding) (part : List Char) : AcceptEncoding :=
  let part := Auth.trim part
  if part.isEmpty then ae
  else
    match (part.splitOn ';').map Auth.trim with
    | [] => ae
    | enc :: pieces =>
      let q := pieces.foldl (fun q piece =>
        match piece.dropPrefix? "q=".toList with
        | some value => (Libraries.parseQuality value).getD q
        | none => q) .allowed
      if enc = "br".toList then { ae with br := q }
      else if enc = "gzip".toList ∨ enc = "gz".toList then { ae with gzip := q }
      else if enc = "*".toList then { ae with star := q }
      else ae

def AcceptEncoding.parse (header : Option (List Char)) : AcceptEncoding :=
  match header with
  | none => ⟨.unset, .unset, .unset⟩
  | some text => (text.splitOn ',').foldl AcceptEncoding.add ⟨.unset, .unset, .unset⟩

end

/-- An encoding that is not mentioned is allowed by a star only. -/
def AcceptEncoding.allows (ae : AcceptEncoding) (enc : String) : Bool :=
  let q := match enc with
    | "br" => ae.br
    | "gzip" | "gz" => ae.gzip
    | _ => .unset
  match q with
  | .allowed => true
  | .refused => false
  | .unset => ae.star = .allowed

/-! ### Files -/

/-- What a file system knows of a file; the time of modification is in nanoseconds since the epoch. -/
structure Metadata where
  modified : Option ℤ
  len : ℕ

/-- The silos at one moment. -/
structure SiloSet where
  read : List Char → Option (List UInt8)
  embedded : List Char → Bool
  metadata : List Char → Option Metadata

/-- The path that is served, its bytes and their encoding. -/
structure Served where
  path : List Char
  bytes : List UInt8
  encoding : Option String
  deriving DecidableEq

def brPath (path : List Char) : List Char := path ++ ".br".toList

def gzPath (path : List Char) : List Char := path ++ ".gz".toList

def SiloSet.serve (silos : SiloSet) (path : List Char) (encoding : Option String) : Option Served :=
  (silos.read path).map fun bytes => ⟨path, bytes, encoding⟩

/-- Brotli first, then gzip, then the file itself. -/
def readBestVariant [Libraries] (silos : SiloSet) (path : List Char) (precompressed : Bool)
    (acceptEncoding : Option (List Char)) : Option Served :=
  if !precompressed then silos.serve path none
  else
    let ae := AcceptEncoding.parse acceptEncoding
    ((if ae.allows "br" then silos.serve (brPath path) (some "br") else none).or
      (if ae.allows "gzip" || ae.allows "gz" then silos.serve (gzPath path) (some "gzip") else none)).or
      (silos.serve path none)

/-! ### Headers -/

def guessMime [Libraries] (path : List Char) : String :=
  ((StdPath.extension (StdPath.parse path)).bind Libraries.mimeOf).getD "application/octet-stream"

/-- HTML pages must not become stale; other names carry a hash. -/
def cacheControlFor (path : List Char) : String :=
  if ".html".toList.isSuffixOf path then "no-cache" else "public, max-age=31536000, immutable"

def strongEtag [Libraries] (bytes : List UInt8) : String := "\"" ++ Libraries.blake3 bytes ++ "\""

/-- Whole seconds since the epoch. -/
def Metadata.seconds (metadata : Metadata) : ℕ := ((metadata.modified.getD 0) / 1000000000).toNat

/-- The name of a version of a file. -/
def fileKey (path : List Char) (seconds len : ℕ) : List Char :=
  path ++ ':' :: (Nat.toDigits 10 seconds ++ ':' :: Nat.toDigits 10 len)

/-- Where the ETag of an asset is cached; without metadata it is not. -/
def SiloSet.cacheKey (silos : SiloSet) (path : List Char) : Option (List Char) :=
  if silos.embedded path then some path
  else (silos.metadata path).map fun metadata => fileKey path metadata.seconds metadata.len

abbrev EtagCache := FMap (List Char) String

def getOrComputeEtag [Libraries] (cache : EtagCache) (path : List Char) (bytes : List UInt8)
    (silos : SiloSet) : String × EtagCache :=
  match silos.cacheKey path with
  | none => (strongEtag bytes, cache)
  | some key =>
    match cache key with
    | some etag => (etag, cache)
    | none => (strongEtag bytes, cache.insert key (strongEtag bytes))

/-! ### Responses -/

inductive Method | get | head | other
  deriving DecidableEq

structure AssetRequest where
  method : Method
  rawPath : List Char
  acceptEncoding : Option (List Char)
  ifNoneMatch : Option (List Char)

structure Headers where
  contentType : String
  contentEncoding : Option String
  vary : Option String
  cacheControl : String
  etag : Option String
  contentLength : ℕ
  deriving DecidableEq

inductive Response
  | methodNotAllowed
  | notFound
  | notModified (etag : String) (vary : Option String)
  | ok (headers : Headers) (body : List UInt8)
  deriving DecidableEq

structure ServeConf where
  serve : AssetServe
  precompressed : Bool
  useEtag : Bool

namespace ServeConf

variable [Libraries] (conf : ServeConf)

/-- The part of `serve_asset` that reads: the answer, if there is nothing to serve. -/
def select (silos : SiloSet) (request : AssetRequest) : Except Response Served :=
  if request.method = .other then .error .methodNotAllowed
  else
    match conf.serve.logicalPath request.rawPath with
    | none => .error .notFound
    | some path =>
      match readBestVariant silos path conf.precompressed request.acceptEncoding with
      | none => .error .notFound
      | some served => .ok served

def vary : Option String := if conf.precompressed then some "Accept-Encoding" else none

def okResponse (request : AssetRequest) (served : Served) (etag : Option String) : Response :=
  .ok { contentType := guessMime served.path, contentEncoding := served.encoding, vary := conf.vary,
        cacheControl := cacheControlFor served.path, etag := etag, contentLength := served.bytes.length }
    (if request.method = .head then [] else served.bytes)

/-- The part of `serve_asset` that answers; the silos may have changed since the bytes were read. -/
def answer (silos : SiloSet) (cache : EtagCache) (request : AssetRequest) (served : Served) :
    Response × EtagCache :=
  if conf.useEtag then
    let (etag, cache) := getOrComputeEtag cache served.path served.bytes silos
    if request.ifNoneMatch.map Auth.trim = some etag.toList then (.notModified etag conf.vary, cache)
    else (conf.okResponse request served (some etag), cache)
  else (conf.okResponse request served none, cache)

def serveAsset (silos later : SiloSet) (cache : EtagCache) (request : AssetRequest) : Response × EtagCache :=
  match conf.select silos request with
  | .error response => (response, cache)
  | .ok served => conf.answer later cache request served

end ServeConf

/-! ### The variants of an asset -/

/-- The variants of an asset that can be read. -/
def stored (silos : SiloSet) (path : List Char) : List (List Char) :=
  [brPath path, gzPath path, path].filter fun variant => (silos.read variant).isSome

/-- The variants are of one type by their own names, and no page is stored compressed next to itself. -/
structure VariantsAlike [Libraries] (silos : SiloSet) (path : List Char) : Prop where
  types : ∀ variant ∈ stored silos path, ∀ other ∈ stored silos path, guessMime variant = guessMime other
  pages : path ∈ stored silos path → ".html".toList <:+ path →
    brPath path ∉ stored silos path ∧ gzPath path ∉ stored silos path

/-- Whatever variant is served for a path, its type and the time it may be cached are the same. -/
def DescribedAlike [Libraries] (conf : ServeConf) (silos : SiloSet) (rawPath : List Char) : Prop :=
  ∀ request request' later later' cache cache' headers headers' body body',
    request.rawPath = rawPath → request'.rawPath = rawPath →
    (conf.serveAsset silos later cache request).1 = .ok headers body →
    (conf.serveAsset silos later' cache' request').1 = .ok headers' body' →
    headers.contentType = headers'.contentType ∧ headers.cacheControl = headers'.cacheControl

section

variable {silos : SiloSet} {path variant : List Char}

theorem serve_eq_some {encoding : Option String} {served : Served} :
    silos.serve path encoding = some served ↔
      silos.read path = some served.bytes ∧ served.path = path ∧ served.encoding = encoding := by
  rw [SiloSet.serve, Option.map_eq_some_iff]
  constructor
  · rintro ⟨bytes, hbytes, rfl⟩
    exact ⟨hbytes, rfl, rfl⟩
  · rintro ⟨hbytes, rfl, rfl⟩
    exact ⟨served.bytes, hbytes, rfl⟩

theorem mem_stored : variant ∈ stored silos path ↔
    (variant = brPath path ∨ variant = gzPath path ∨ variant = path) ∧ (silos.read variant).isSome := by
  rw [stored, List.mem_filter]
  simp

/-- A compressed name is no page's. -/
theorem cacheControl_compressed : cacheControlFor (brPath path) = cacheControlFor (gzPath path) ∧
    cacheControlFor (brPath path) = "public, max-age=31536000, immutable" := by
  have hname : ∀ {ending : List Char}, ending.getLast? ≠ some 'l' → ending ≠ [] →
      ¬ ".html".toList.isSuffixOf (path ++ ending) = true := by
    intro ending hlast hne hsuffix
    obtain ⟨front, hfront⟩ := List.isSuffixOf_iff_suffix.mp hsuffix
    have hends := congrArg List.getLast? hfront
    rw [List.getLast?_append_of_ne_nil _ (by decide), List.getLast?_append_of_ne_nil _ hne] at hends
    exact hlast hends.symm
  rw [brPath, gzPath, cacheControlFor, cacheControlFor, if_neg (hname (by decide) (by decide)),
    if_neg (hname (by decide) (by decide))]
  exact ⟨rfl, rfl⟩

variable [Libraries]

/-- What is read is one of the variants. -/
theorem readBestVariant_stored {accept : Option (List Char)} {served : Served}
    (h : readBestVariant silos path true accept = some served) :
    served.path ∈ stored silos path ∧ silos.read served.path = some served.bytes := by
  have hof : ∀ {variant encoding}, (variant = brPath path ∨ variant = gzPath path ∨ variant = path) →
      silos.serve variant encoding = some served →
      served.path ∈ stored silos path ∧ silos.read served.path = some served.bytes := by
    intro variant encoding hvariant hserve
    obtain ⟨hread, rfl, -⟩ := serve_eq_some.mp hserve
    exact ⟨mem_stored.mpr ⟨hvariant, Option.isSome_of_eq_some hread⟩, hread⟩
  rw [readBestVariant, if_neg (by decide)] at h
  rcases Option.or_eq_some_iff.mp h with h | ⟨-, h⟩
  · rcases Option.or_eq_some_iff.mp h with h | ⟨-, h⟩
    · split at h
      next => exact hof (.inl rfl) h
      next => exact nomatch h
    · split at h
      next => exact hof (.inr (.inl rfl)) h
      next => exact nomatch h
  · exact hof (.inr (.inr rfl)) h

/-- Each variant is what some client is given. -/
theorem stored_is_read (h : variant ∈ stored silos path) :
    ∃ accept served, readBestVariant silos path true accept = some served ∧ served.path = variant := by
  obtain ⟨hvariant, hread⟩ := mem_stored.mp h
  obtain ⟨bytes, hbytes⟩ := Option.isSome_iff_exists.mp hread
  rcases hvariant with rfl | rfl | rfl
  · refine ⟨some "br".toList, ⟨_, bytes, some "br"⟩, ?_, rfl⟩
    have hallows : (AcceptEncoding.parse (some "br".toList)).allows "br" = true := rfl
    rw [readBestVariant, if_neg (by decide)]
    dsimp only
    rw [hallows, if_pos rfl, SiloSet.serve, hbytes]
    rfl
  · refine ⟨some "gzip".toList, ⟨_, bytes, some "gzip"⟩, ?_, rfl⟩
    have hbr : (AcceptEncoding.parse (some "gzip".toList)).allows "br" = false := rfl
    have hgzip : (AcceptEncoding.parse (some "gzip".toList)).allows "gzip" = true := rfl
    rw [readBestVariant, if_neg (by decide)]
    dsimp only
    rw [hbr, if_neg (by decide), hgzip, Bool.true_or, if_pos rfl, SiloSet.serve, hbytes]
    rfl
  · refine ⟨none, ⟨_, bytes, none⟩, ?_, rfl⟩
    rw [readBestVariant, if_neg (by decide), SiloSet.serve, SiloSet.serve, SiloSet.serve, hbytes]
    rfl

variable {conf : ServeConf} {later : SiloSet} {cache : EtagCache} {request : AssetRequest}

/-- A full answer is made from the variant that was read. -/
theorem serveAsset_ok {headers : Headers} {body : List UInt8}
    (h : (conf.serveAsset silos later cache request).1 = .ok headers body) :
    ∃ served, conf.select silos request = .ok served ∧ headers.contentType = guessMime served.path ∧
      headers.cacheControl = cacheControlFor served.path := by
  rw [ServeConf.serveAsset] at h
  cases hselect : conf.select silos request with
  | error response =>
    rw [hselect] at h
    dsimp only at h
    rw [ServeConf.select] at hselect
    split at hselect
    next => cases hselect; exact nomatch h
    next =>
      split at hselect
      next => cases hselect; exact nomatch h
      next =>
        split at hselect
        next => cases hselect; exact nomatch h
        next => exact nomatch hselect
  | ok served =>
    rw [hselect] at h
    refine ⟨served, rfl, ?_⟩
    dsimp only at h
    rw [ServeConf.answer] at h
    split at h
    next =>
      dsimp only at h
      split at h
      next => exact nomatch h
      next => cases h; exact ⟨rfl, rfl⟩
    next => cases h; exact ⟨rfl, rfl⟩

/-- The request that reads a variant. -/
theorem select_eq_ok {served : Served} (hpath : conf.serve.logicalPath request.rawPath = some path)
    (h : conf.select silos request = .ok served) :
    readBestVariant silos path conf.precompressed request.acceptEncoding = some served := by
  rw [ServeConf.select] at h
  split at h
  next => exact nomatch h
  next =>
    rw [hpath] at h
    dsimp only at h
    cases hread : readBestVariant silos path conf.precompressed request.acceptEncoding with
    | none =>
      rw [hread] at h
      exact nomatch h
    | some served' =>
      rw [hread] at h
      exact congrArg some (Except.ok.inj h)

/-- Each variant is described to some client by its own name. -/
theorem stored_is_described {rawPath : List Char} (hconf : conf.precompressed = true)
    (hpath : conf.serve.logicalPath rawPath = some path) (h : variant ∈ stored silos path) :
    ∃ request headers body, request.rawPath = rawPath ∧
      (conf.serveAsset silos silos FMap.empty request).1 = .ok headers body ∧
      headers.contentType = guessMime variant ∧ headers.cacheControl = cacheControlFor variant := by
  obtain ⟨accept, served, hread, rfl⟩ := stored_is_read h
  refine ⟨⟨.get, rawPath, accept, none⟩, ?_⟩
  have hselect : conf.select silos ⟨.get, rawPath, accept, none⟩ = .ok served := by
    rw [ServeConf.select, if_neg (fun hmethod => (nomatch hmethod)), hpath]
    dsimp only
    rw [hconf, hread]
  rw [ServeConf.serveAsset, hselect]
  dsimp only
  rw [ServeConf.answer]
  cases conf.useEtag with
  | true => exact ⟨_, _, rfl, rfl, rfl, rfl⟩
  | false => exact ⟨_, _, rfl, rfl, rfl, rfl⟩

/-- All variants may be cached as long as one of them. -/
theorem VariantsAlike.control (h : VariantsAlike silos path) : ∃ control, ∀ variant ∈ stored silos path,
    cacheControlFor variant = control := by
  obtain ⟨hsame, hlong⟩ := @cacheControl_compressed path
  by_cases hpage : path ∈ stored silos path ∧ ".html".toList <:+ path
  · obtain ⟨hbr, hgz⟩ := h.pages hpage.1 hpage.2
    refine ⟨cacheControlFor path, fun variant hvariant => ?_⟩
    rcases (mem_stored.mp hvariant).1 with rfl | rfl | rfl
    · exact absurd hvariant hbr
    · exact absurd hvariant hgz
    · rfl
  · refine ⟨cacheControlFor (brPath path), fun variant hvariant => ?_⟩
    rcases (mem_stored.mp hvariant).1 with rfl | rfl | rfl
    · rfl
    · exact hsame.symm
    · rw [hlong]
      exact if_neg fun hsuffix => hpage ⟨hvariant, List.isSuffixOf_iff_suffix.mp hsuffix⟩

/-- Which variant is served does not show in its type and in how long it may be cached, exactly when the
    stored variants are of one type by their own names and a page has no compressed variant next to it. -/
theorem variants_described_alike_iff (conf : ServeConf) (silos : SiloSet) {rawPath path : List Char}
    (hconf : conf.precompressed = true) (hpath : conf.serve.logicalPath rawPath = some path) :
    DescribedAlike conf silos rawPath ↔ VariantsAlike silos path := by
  obtain ⟨hsame, hlong⟩ := @cacheControl_compressed path
  constructor
  · intro h
    have hpair : ∀ variant ∈ stored silos path, ∀ other ∈ stored silos path,
        guessMime variant = guessMime other ∧ cacheControlFor variant = cacheControlFor other := by
      intro variant hvariant other hother
      obtain ⟨request, headers, body, hraw, hresponse, htype, hcontrol⟩ :=
        stored_is_described hconf hpath hvariant
      obtain ⟨request', headers', body', hraw', hresponse', htype', hcontrol'⟩ :=
        stored_is_described hconf hpath hother
      rw [← htype, ← htype', ← hcontrol, ← hcontrol']
      exact h _ _ _ _ _ _ _ _ _ _ hraw hraw' hresponse hresponse'
    refine ⟨fun variant hvariant other hother => (hpair variant hvariant other hother).1, fun hplain hpage => ?_⟩
    have hshort : cacheControlFor path = "no-cache" := if_pos (List.isSuffixOf_iff_suffix.mpr hpage)
    constructor
    · intro hbr
      exact absurd (hshort.symm.trans ((hpair _ hplain _ hbr).2.trans hlong)) (by decide)
    · intro hgz
      exact absurd (hshort.symm.trans ((hpair _ hplain _ hgz).2.trans (hsame.symm.trans hlong))) (by decide)
  · intro h request request' later later' cache cache' headers headers' body body' hraw hraw' hok hok'
    obtain ⟨served, hselect, htype, hcache⟩ := serveAsset_ok hok
    obtain ⟨served', hselect', htype', hcache'⟩ := serveAsset_ok hok'
    have hread := select_eq_ok (hraw ▸ hpath) hselect
    have hread' := select_eq_ok (hraw' ▸ hpath) hselect'
    rw [hconf] at hread hread'
    obtain ⟨hmem, -⟩ := readBestVariant_stored hread
    obtain ⟨hmem', -⟩ := readBestVariant_stored hread'
    obtain ⟨control, hcontrol⟩ := h.control
    rw [htype, htype', hcache, hcache']
    exact ⟨h.types _ hmem _ hmem', (hcontrol _ hmem).trans (hcontrol _ hmem').symm⟩

end

/-- A few types, no qualities, and a digest that is the number of bytes. -/
@[reducible] def fewTypes : Libraries where
  parseQuality _ := none
  mimeOf ext :=
    if ext = "html".toList then some "text/html"
    else if ext = "gz".toList then some "application/gzip"
    else none
  blake3 bytes := toString bytes.length

/-- Silos of small files. -/
def smallSilos (names : List String) : SiloSet where
  read path := if names.contains (String.ofList path) then some [1, 2, 3] else none
  embedded _ := true
  metadata _ := none

def publicConf : ServeConf := ⟨AssetServe.new publicAssetsFolder, true, true⟩

theorem archives_are_described_alike :
    let _ := fewTypes
    DescribedAlike publicConf (smallSilos ["public/data.gz", "public/data.gz.gz"]) "/data.gz".toList := by
  let _ := fewTypes
  have hpath : publicConf.serve.logicalPath "/data.gz".toList = some "public/data.gz".toList := by decide
  have hstored : stored (smallSilos ["public/data.gz", "public/data.gz.gz"]) "public/data.gz".toList =
      ["public/data.gz.gz".toList, "public/data.gz".toList] := by decide
  refine (variants_described_alike_iff publicConf _ rfl hpath).mpr ⟨?_, fun _ hpage => absurd hpage (by decide)⟩
  have htype : ∀ variant ∈ ["public/data.gz.gz".toList, "public/data.gz".toList],
      guessMime variant = "application/gzip" := by decide
  rw [hstored]
  intro variant hvariant other hother
  rw [htype variant hvariant, htype other hother]

/-- A page that is also stored compressed is an archive to a client that accepts gzip, and cached for a year. -/
theorem compressed_page_is_an_archive :
    let _ := fewTypes
    let silos := smallSilos ["public/index.html", "public/index.html.gz"]
    let answer := fun accept =>
      (publicConf.serveAsset silos silos FMap.empty ⟨.get, "/index.html".toList, accept, none⟩).1
    answer none = .ok ⟨"text/html", none, some "Accept-Encoding", "no-cache", some "\"3\"", 3⟩ [1, 2, 3] ∧
      answer (some "gzip".toList) = .ok ⟨"application/gzip", some "gzip", some "Accept-Encoding",
        "public, max-age=31536000, immutable", some "\"3\"", 3⟩ [1, 2, 3] := by
  decide

end Vyuh.Assets
