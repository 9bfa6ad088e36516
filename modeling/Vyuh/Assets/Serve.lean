import Vyuh.Assets.Urls

/-! The path a request for a public asset is looked up at (`assets.rs`, `site.rs`): decoded, cleaned of
    empty segments, cut off at the mount and put below the folder of the public assets. -/

namespace Vyuh.Assets

open Lib

/-! ### Serving -/

/-- One segment of the cleaned path. -/
def pushSegment (out segment : List Char) : Option (List Char) :=
  if segment.isEmpty then some out
  else if segment = ['.'] || segment = ['.', '.'] then none
  else if segment.contains '\x00' then none
  else some (if out.isEmpty then segment else out ++ '/' :: segment)

def cleanRelPath (rawPath : List Char) : Option (List Char) := do
  let decoded ← Percent.decodeText (trimStart rawPath)
  if decoded.contains '\\' then none
  else (decoded.splitOn '/').foldlM pushSegment []

def normalizePrefix (folder : List Char) : List Char :=
  if folder.isEmpty then [] else trimEnd (trimStart folder) ++ ['/']

def stripUrlPrefix (path urlPrefix : List Char) : Option (List Char) :=
  if urlPrefix.isEmpty then some path
  else if path = trimEnd urlPrefix then some []
  else
    match path.dropPrefix? urlPrefix with
    | none => some path
    | some rest => (rest.dropPrefix? ['/']).or (some path)

def joinPrefix (folder rel : List Char) : List Char :=
  if folder.isEmpty then rel
  else if rel.isEmpty then trimEnd folder
  else folder ++ rel

structure AssetServe where
  folder : List Char
  urlPrefix : List Char

namespace AssetServe

def new (folder : List Char) : AssetServe := ⟨normalizePrefix folder, []⟩

def stripUrlPrefix (serve : AssetServe) (urlPrefix : List Char) : AssetServe :=
  { serve with urlPrefix := normalizePrefix urlPrefix }

/-- The path that `serve_asset` looks up; without one there is no such asset. -/
def logicalPath (serve : AssetServe) (rawPath : List Char) : Option (List Char) := do
  let cleanRel ← cleanRelPath rawPath
  let cleanRel ← Assets.stripUrlPrefix cleanRel serve.urlPrefix
  some (joinPrefix serve.folder cleanRel)

end AssetServe

def publicAssetsFolder : List Char := "public".toList

/-- The assets of a site. -/
def AssetUrls.serve (urls : AssetUrls) : AssetServe :=
  (AssetServe.new publicAssetsFolder).stripUrlPrefix (trimStart urls.mountPath.text)

/-! ### Cleaned paths -/

theorem of_mem_splitOn {text segment : List Char} (h : segment ∈ text.splitOn '/') :
    '/' ∉ segment ∧ segment ⊆ text := by
  induction text generalizing segment with
  | nil =>
    rw [List.splitOn_nil, List.mem_singleton] at h
    rw [h]
    exact ⟨List.not_mem_nil, List.Subset.refl _⟩
  | cons c text ih =>
    rw [List.splitOn_cons_eq_if_modifyHead] at h
    split at h
    next =>
      obtain rfl | hrest := List.mem_cons.mp h
      · exact ⟨List.not_mem_nil, List.nil_subset _⟩
      · exact ⟨(ih hrest).1, List.subset_cons_of_subset _ (ih hrest).2⟩
    next hne =>
      obtain ⟨first, segments, hsplit⟩ := List.exists_cons_of_ne_nil (List.splitOn_ne_nil '/' text)
      rw [hsplit] at ih h
      rw [List.modifyHead_cons] at h
      obtain rfl | hrest := List.mem_cons.mp h
      · obtain ⟨hslash, hsub⟩ := ih List.mem_cons_self
        refine ⟨?_, List.cons_subset_cons c hsub⟩
        rw [List.mem_cons, not_or]
        exact ⟨fun hc => hne (beq_iff_eq.mpr hc.symm), hslash⟩
      · obtain ⟨hslash, hsub⟩ := ih (List.mem_cons_of_mem _ hrest)
        exact ⟨hslash, List.subset_cons_of_subset _ hsub⟩

theorem clean_of_plain {segment : List Char} (h : Plain segment) : Clean segment := by
  intro segment' hmem
  rw [List.splitOn_eq_singleton h.noSlash, List.mem_singleton] at hmem
  rw [hmem]
  exact h

/-- A segment that is taken leaves the path clean. -/
theorem pushSegment_clean {out out' segment : List Char} (hout : out = [] ∨ Clean out)
    (hslash : '/' ∉ segment) (hbackslash : '\\' ∉ segment) (h : pushSegment out segment = some out') :
    out' = [] ∨ Clean out' := by
  rw [pushSegment] at h
  split at h
  next => rwa [← Option.some.inj h]
  next hempty =>
    split at h
    next => exact nomatch h
    next hdots =>
      split at h
      next => exact nomatch h
      next hnul =>
        simp only [Bool.or_eq_true, decide_eq_true_eq, not_or] at hdots
        have hplain : Plain segment :=
          ⟨fun hnil => hempty (List.isEmpty_iff.mpr hnil), hdots.1, hdots.2, hslash, hbackslash,
            fun hmem => hnul (List.contains_iff_mem.mpr hmem)⟩
        rw [← Option.some.inj h]
        split
        next => exact .inr (clean_of_plain hplain)
        next hfirst =>
          have hclean := hout.resolve_left fun hnil => hfirst (List.isEmpty_iff.mpr hnil)
          refine .inr fun segment' hmem => ?_
          rw [List.splitOn_append_cons_self, List.mem_append] at hmem
          exact hmem.elim (hclean segment') (clean_of_plain hplain segment')

theorem foldlM_pushSegment_clean {segments : List (List Char)} {out out' : List Char}
    (hout : out = [] ∨ Clean out)
    (hsegments : ∀ segment ∈ segments, '/' ∉ segment ∧ '\\' ∉ segment)
    (h : segments.foldlM pushSegment out = some out') : out' = [] ∨ Clean out' := by
  induction segments generalizing out with
  | nil => rwa [← Option.some.inj h]
  | cons segment segments ih =>
    rw [List.foldlM_cons] at h
    obtain ⟨next, hnext, hrest⟩ := Option.bind_eq_some_iff.mp h
    have hfirst := hsegments segment List.mem_cons_self
    exact ih (pushSegment_clean hout hfirst.1 hfirst.2 hnext)
      (fun segment' hmem => hsegments segment' (List.mem_cons_of_mem _ hmem)) hrest

/-- Whatever is asked for, the cleaned path is empty or has plain segments. -/
theorem cleanRelPath_clean {rawPath rel : List Char} (h : cleanRelPath rawPath = some rel) :
    rel = [] ∨ Clean rel := by
  rw [cleanRelPath] at h
  obtain ⟨decoded, -, hrest⟩ := Option.bind_eq_some_iff.mp h
  split at hrest
  next => exact nomatch hrest
  next hbackslash =>
    refine foldlM_pushSegment_clean (.inl rfl) (fun segment hmem => ?_) hrest
    have hsegment := of_mem_splitOn hmem
    exact ⟨hsegment.1, fun hin => hbackslash (List.contains_iff_mem.mpr (hsegment.2 hin))⟩

/-! ### Asset URLs -/

theorem pushSegment_plain {out segment : List Char} (h : Plain segment) :
    pushSegment out segment = some (if out.isEmpty then segment else out ++ '/' :: segment) := by
  rw [pushSegment, if_neg (by simpa using h.nonempty), if_neg (by simpa using ⟨h.notSelf, h.notParent⟩),
    if_neg (by simpa using h.noNul)]

theorem foldlM_pushSegment_plain {segments : List (List Char)} {out : List Char} (hout : out ≠ [])
    (h : ∀ segment ∈ segments, Plain segment) :
    segments.foldlM pushSegment out = some (out ++ tail segments) := by
  induction segments generalizing out with
  | nil => exact congrArg some (List.append_nil out).symm
  | cons segment segments ih =>
    rw [List.foldlM_cons, pushSegment_plain (h segment List.mem_cons_self), if_neg (by simpa using hout)]
    refine (ih (by simp) fun segment' hmem => h segment' (List.mem_cons_of_mem _ hmem)).trans ?_
    rw [List.append_assoc]
    rfl

/-- A clean path is put together again from its segments. -/
theorem foldlM_pushSegment_splitOn {path : List Char} (h : Clean path) :
    (path.splitOn '/').foldlM pushSegment [] = some path := by
  obtain ⟨segment, segments, hsplit, hpath⟩ := path_eq_segments path
  rw [Clean, hsplit, List.forall_mem_cons] at h
  rw [hsplit, List.foldlM_cons, pushSegment_plain h.1]
  refine (foldlM_pushSegment_plain h.1.nonempty h.2).trans ?_
  rw [← hpath]

theorem decode_tail (segments : List (List Char)) :
    Percent.decode (tail (segments.map (Percent.encode assetSegment))) = utf8 (tail segments) := by
  induction segments with
  | nil => rfl
  | cons segment segments ih =>
    show Percent.decode ('/' :: (Percent.encode assetSegment segment ++
      tail (segments.map (Percent.encode assetSegment)))) = utf8 ('/' :: (segment ++ tail segments))
    rw [Percent.decode_cons (by decide), Percent.decode_encode_append (by decide), ih, ← utf8_append]
    rfl

theorem decode_encoded (path : List Char) : Percent.decode (AssetUrls.encoded path) = utf8 path := by
  obtain ⟨segment, segments, hsplit, hpath⟩ := path_eq_segments path
  rw [AssetUrls.encoded, hsplit, List.map_cons, intercalate_eq, Percent.decode_encode_append (by decide),
    decode_tail, ← utf8_append, ← hpath]

theorem head?_encoded {path : List Char} (h : Clean path) :
    (AssetUrls.encoded path).head? ≠ some '/' := by
  obtain ⟨segment, segments, hsplit, hpath⟩ := path_eq_segments path
  rw [Clean, hsplit, List.forall_mem_cons] at h
  obtain ⟨c, rest, rfl⟩ := List.exists_cons_of_ne_nil h.1.nonempty
  have hc : c ≠ '/' := fun hc => h.1.noSlash (hc ▸ List.mem_cons_self)
  rw [AssetUrls.encoded, hsplit, List.map_cons, intercalate_eq, Percent.encode, List.flatMap_cons]
  obtain ⟨hplain, -⟩ | ⟨escape, hescape⟩ := Percent.encodeChar_cases assetSegment c
  · rw [hplain]
    simpa using hc
  · rw [hescape]
    simp

/-- What is asked for by an asset's URL is the asset's path. -/
theorem cleanRelPath_encoded {path : List Char} (h : Clean path) :
    cleanRelPath ('/' :: AssetUrls.encoded path) = some path := by
  have htrim : trimStart ('/' :: AssetUrls.encoded path) = AssetUrls.encoded path :=
    trimStart_of_head (head?_encoded h)
  have hbackslash : path.contains '\\' = false := by
    rw [List.contains_eq_mem, decide_eq_false_iff_not]
    exact not_mem_of_segments (by decide) fun segment hmem => (h segment hmem).noBackslash
  rw [cleanRelPath, htrim, Percent.decodeText, decode_encoded, fromUtf8_utf8]
  show (if path.contains '\\' then none else _) = _
  rw [hbackslash]
  exact foldlM_pushSegment_splitOn h

/-! ### The site's assets -/

/-- Of clean paths only the mount's own is changed: a prefix in front of a slash is followed by no other. -/
theorem stripUrlPrefix_eq {path mount : List Char} (hpath : path = [] ∨ Clean path) (hmount : Clean mount) :
    stripUrlPrefix path (mount ++ ['/']) = some (if path = mount then [] else path) := by
  have htrim : trimEnd (mount ++ ['/']) = mount := by
    rw [trimEnd, List.rdropWhile_concat_pos _ _ _ (by decide)]
    exact hmount.trimEnd_eq
  rw [stripUrlPrefix, if_neg (by simp), htrim]
  split
  next => rfl
  next =>
    cases hdrop : path.dropPrefix? (mount ++ ['/']) with
    | none => rfl
    | some rest =>
      obtain ⟨front, hfront, heq⟩ := List.dropPrefix?_eq_some_iff.mp hdrop
      rw [beq_iff_eq.mp heq, List.append_assoc, List.singleton_append] at hfront
      have hne : path ≠ [] := by simp [hfront]
      have hrest := (hfront ▸ hpath.resolve_left hne : Clean (mount ++ '/' :: rest)).sides.2
      have hslash : rest.dropPrefix? ['/'] = none := by
        rw [Option.eq_none_iff_forall_ne_some]
        intro below hbelow
        obtain ⟨front', hfront', heq'⟩ := List.dropPrefix?_eq_some_iff.mp hbelow
        rw [beq_iff_eq.mp heq'] at hfront'
        exact hrest.head_ne (by rw [hfront']; rfl)
      dsimp only
      rw [hslash, Option.none_or]

theorem normalizePrefix_clean {path : List Char} (h : Clean path) : normalizePrefix path = path ++ ['/'] := by
  rw [normalizePrefix, if_neg (by simpa using h.ne_nil), h.trimStart_eq, h.trimEnd_eq]

/-- Where a cleaned path is looked up. -/
theorem serve_logicalPath (urls : AssetUrls) {rawPath rel : List Char} (h : cleanRelPath rawPath = some rel) :
    urls.serve.logicalPath rawPath =
      some (if rel = [] ∨ rel = trimStart urls.mountPath.text then publicAssetsFolder
        else publicAssetsFolder ++ '/' :: rel) := by
  have hclean := urls.mountPath.clean
  rw [AssetServe.logicalPath, h]
  show (stripUrlPrefix rel (normalizePrefix (trimStart urls.mountPath.text))).bind
    (fun rel => some (joinPrefix (normalizePrefix publicAssetsFolder) rel)) = _
  rw [normalizePrefix_clean hclean, stripUrlPrefix_eq (cleanRelPath_clean h) hclean, Option.bind_some]
  have hfolder : normalizePrefix publicAssetsFolder = publicAssetsFolder ++ ['/'] := by decide
  have hroot : joinPrefix (publicAssetsFolder ++ ['/']) [] = publicAssetsFolder := by decide
  rw [hfolder]
  by_cases hmount : rel = trimStart urls.mountPath.text
  · rw [if_pos hmount, if_pos (.inr hmount), hroot]
  rw [if_neg hmount]
  by_cases hempty : rel = []
  · rw [if_pos (.inl hempty), hempty, hroot]
  · rw [if_neg (not_or.mpr ⟨hempty, hmount⟩), joinPrefix, if_neg (by simp), if_neg (by simpa using hempty),
      List.append_assoc]
    rfl

/-- The folder, or a path of plain segments below it. -/
def Below (folder path : List Char) : Prop := path = folder ∨ ∃ rel, path = folder ++ '/' :: rel ∧ Clean rel

theorem serve_below (urls : AssetUrls) {rawPath path : List Char}
    (h : urls.serve.logicalPath rawPath = some path) : Below publicAssetsFolder path := by
  obtain ⟨rel, hrel, -⟩ := Option.bind_eq_some_iff.mp h
  rw [serve_logicalPath urls hrel] at h
  rw [← Option.some.inj h]
  split
  next => exact .inl rfl
  next hplace =>
    exact .inr ⟨rel, rfl, (cleanRelPath_clean hrel).resolve_left fun hnil => hplace (.inl hnil)⟩

theorem clean_of_url {urls : AssetUrls} {path url : List Char} (h : urls.url path = .ok url) :
    Clean path ∧ url = urls.staticUrl ++ AssetUrls.encoded path := by
  obtain ⟨_, hvalid, hurl⟩ := Step.except_bind_ok.mp h
  rw [validateAssetPath] at hvalid
  split at hvalid
  next => exact nomatch hvalid
  next => exact ⟨clean_of_validateSegments hvalid, (Except.ok.inj hurl).symm⟩

/-- Where the assets' service looks for an asset that is asked for by its URL. -/
theorem logicalPath_encoded (urls : AssetUrls) {path : List Char} (h : Clean path) :
    urls.serve.logicalPath ('/' :: AssetUrls.encoded path) =
      some (if path = trimStart urls.mountPath.text then publicAssetsFolder
        else publicAssetsFolder ++ '/' :: path) := by
  rw [serve_logicalPath urls (cleanRelPath_encoded h)]
  simp only [h.ne_nil, false_or]

/-- An asset is looked up under its own path at the path of its URL, below the mount's prefix that the
    router takes off: for every mount but one written as a network path, and for every asset but the one
    whose path is the mount's. No request leads out of the folder. -/
theorem asset_looked_up_iff {υ : Type} [UrlCrate υ] (hcrate : UrlCrate.Lawful υ)
    {nest : List Char → List Char → Option (List Char)}
    (hnest : ∀ mount rest, nest mount (mount ++ '/' :: rest) = some ('/' :: rest))
    (hslashes : ∀ mount path rest, nest mount path = some rest → mount.takeWhile (· = '/') <+: path)
    {value : List Char} {urls : AssetUrls} (hparse : AssetUrls.parse υ value = .ok urls)
    {path url : List Char} (hurl : urls.url path = .ok url) :
    ((nest urls.mountPath.text (Uri.parse url).path).bind urls.serve.logicalPath =
        some (publicAssetsFolder ++ '/' :: path) ∧
      ∀ rawPath logicalPath, urls.serve.logicalPath rawPath = some logicalPath →
        Below publicAssetsFolder logicalPath) ↔
      path ≠ trimStart urls.mountPath.text ∧ ¬['/', '/'] <+: value := by
  obtain ⟨hclean, rfl⟩ := clean_of_url hurl
  rw [and_iff_left fun _ _ => serve_below urls]
  by_cases hvalue : ['/', '/'] <+: value
  · -- The browser takes the beginning of the mount for a host.
    refine iff_of_false (fun h => ?_) (fun h => h.2 hvalue)
    obtain ⟨rest, hrest, -⟩ := Option.bind_eq_some_iff.mp h
    obtain ⟨hdouble, hstatic, hquery, hfragment⟩ := relative_of_double hparse hvalue
    rw [hstatic, List.append_assoc, List.singleton_append] at hrest
    exact slashes_not_prefix hdouble hquery hfragment (head?_encoded hclean) (hslashes _ _ _ hrest)
  have hquery := not_mem_encoded (c := '?') (by decide) (by decide) (by decide) (by decide) path
  have hfragment := not_mem_encoded (c := '#') (by decide) (by decide) (by decide) (by decide) path
  rw [and_iff_left hvalue, path_staticUrl hcrate hparse hvalue hquery hfragment, hnest, Option.bind_some,
    logicalPath_encoded urls hclean]
  split
  next hmount =>
    refine iff_of_false (fun h => ?_) (not_not.mpr hmount)
    have hlength := congrArg List.length (Option.some.inj h)
    rw [List.length_append, List.length_cons] at hlength
    omega
  next hmount => exact iff_of_true rfl hmount

/-- A URL of a scheme, an authority and a path. -/
structure PlainUrl where
  scheme : List Char
  authority : List Char
  path : List Char
  plain : ∀ c ∈ authority, c ≠ '/' ∧ c ≠ '?' ∧ c ≠ '#'

namespace PlainUrl

def isAuthority (c : Char) : Bool := c ≠ '/' && c ≠ '?' && c ≠ '#'

instance : UrlCrate PlainUrl where
  parse value :=
    match (value.dropWhile (· ≠ ':')).dropPrefix? "://".toList with
    | none => none
    | some rest =>
      some ⟨value.takeWhile (· ≠ ':'), rest.takeWhile isAuthority, rest.dropWhile isAuthority,
        fun c hmem => by simpa [isAuthority, and_assoc] using List.mem_takeWhile_imp hmem⟩
  scheme := PlainUrl.scheme
  host url := some url.authority
  username _ := []
  password _ := none
  query _ := none
  fragment _ := none
  path := PlainUrl.path
  setPath url path := { url with path := path }
  asStr url := url.scheme ++ "://".toList ++ url.authority ++ url.path

theorem lawful : UrlCrate.Lawful PlainUrl := ⟨fun url _ => ⟨url.authority, url.plain, fun _ _ _ => rfl⟩⟩

end PlainUrl

/-- The router takes the mount's prefix off. -/
def stripMount (mount path : List Char) : Option (List Char) := path.dropPrefix? mount

theorem stripMount_append (mount rest : List Char) :
    stripMount mount (mount ++ '/' :: rest) = some ('/' :: rest) :=
  List.dropPrefix?_append_of_beq _ (beq_self_eq_true _)

theorem stripMount_slashes (mount path rest : List Char) (h : stripMount mount path = some rest) :
    mount.takeWhile (· = '/') <+: path := by
  obtain ⟨front, rfl, heq⟩ := List.dropPrefix?_eq_some_iff.mp h
  rw [beq_iff_eq.mp heq]
  exact (List.takeWhile_prefix _).trans (List.prefix_append _ _)

/-- The default mount. -/
def staticMount : MountPath := ⟨"/static".toList, by decide, by decide⟩

theorem cdn_asset_is_looked_up :
    ∃ urls url, AssetUrls.parse PlainUrl "https://cdn.example.com/static".toList = .ok urls ∧
      urls.url "console/a%b.js".toList = .ok url ∧
      (stripMount urls.mountPath.text (Uri.parse url).path).bind urls.serve.logicalPath =
        some (publicAssetsFolder ++ '/' :: "console/a%b.js".toList) := by
  have hparse : AssetUrls.parse PlainUrl "https://cdn.example.com/static".toList =
      .ok ⟨"https://cdn.example.com/static/".toList, staticMount⟩ := rfl
  have hurl : AssetUrls.url ⟨"https://cdn.example.com/static/".toList, staticMount⟩ "console/a%b.js".toList =
      .ok "https://cdn.example.com/static/console/a%25b.js".toList := rfl
  exact ⟨_, _, hparse, hurl,
    ((asset_looked_up_iff PlainUrl.lawful stripMount_append stripMount_slashes hparse hurl).mpr
      (by decide)).1⟩

/-- The asset named like the mount is looked for as the folder itself. -/
theorem asset_named_static_is_not_looked_up :
    ∃ urls url, AssetUrls.parse PlainUrl "/static".toList = .ok urls ∧
      urls.url "static".toList = .ok url ∧ url = "/static/static".toList ∧
      (stripMount urls.mountPath.text (Uri.parse url).path).bind urls.serve.logicalPath =
        some publicAssetsFolder ∧
      (stripMount urls.mountPath.text (Uri.parse url).path).bind urls.serve.logicalPath ≠
        some (publicAssetsFolder ++ '/' :: "static".toList) :=
  ⟨⟨"/static/".toList, staticMount⟩, _, rfl, rfl, by decide, by decide, by decide⟩

-- A static URL of two slashes names another host, and its own mount is not asked for there.
example : ∃ urls, AssetUrls.parse PlainUrl "//cdn.example.com/static".toList = .ok urls ∧
    urls.mountPath.text = "//cdn.example.com/static".toList ∧
    (Uri.parse (urls.staticUrl ++ "app.css".toList)).authority = some "cdn.example.com".toList ∧
    (Uri.parse (urls.staticUrl ++ "app.css".toList)).path = "/static/app.css".toList :=
  ⟨⟨"//cdn.example.com/static/".toList, "//cdn.example.com/static".toList, by decide, by decide⟩, rfl, rfl,
    by decide, by decide⟩

end Vyuh.Assets
