import Vyuh.Cache.Memory
import Vyuh.Cache.Retention
import Vyuh.Lib.Coding
import Vyuh.Lib.Step

/-! Canonical cache keys (`cache/key.rs`). A key is the provider, the number of namespaces, the
    namespaces and the application's key, each text with its length in front; a provider's scope is the
    text all its keys begin with. -/

namespace Vyuh.Cache
open Lib

def maxKeyBytes : ℕ := 512
def maxNamespaceBytes : ℕ := 128
def maxNamespaceDepth : ℕ := 8

/-- A reusable name for one configured cache provider. -/
structure CacheName where
  asStr : String
  deriving DecidableEq, Repr

/-- `u8::is_ascii_control`, on characters: the bytes of a longer one are no ASCII. -/
def isAsciiControl (c : Char) : Bool := c.toNat < 32 || c.toNat = 127

def validateProviderName (value : String) : Except CacheError Unit :=
  if !value.isEmpty && value.utf8ByteSize ≤ 64 &&
      value.toList.all (fun c => c.isAlphanum || c = '-' || c = '_') then .ok ()
  else .error .invalidProviderName

def validateKey (value : String) (limit : ℕ) : Except CacheError Unit :=
  if !value.isEmpty && value.utf8ByteSize ≤ limit && !value.toList.any isAsciiControl then .ok ()
  else .error .invalidKey

/-- One text with its length in front. -/
def appendPart (output value : String) : String :=
  output ++ Nat.repr value.utf8ByteSize ++ ":" ++ value ++ ":"

def providerScope (provider : CacheName) : String :=
  appendPart "vyuh-cache:v1:provider:" provider.asStr ++ ":"

def cacheKey (provider : CacheName) (namespaces : List String) (key : String) :
    Except CacheError String := do
  validateKey key maxKeyBytes
  if namespaces.length > maxNamespaceDepth then .error .invalidKey
  else do
    let output := providerScope provider ++ "ns:" ++ Nat.repr namespaces.length ++ ":"
    let output ← namespaces.foldlM (fun output value => do
      validateKey value maxNamespaceBytes
      pure (appendPart output value)) output
    pure (appendPart (output ++ "key:") key)

/-- The prefix of everything a provider stores. -/
def cacheScope (provider : CacheName) : String := providerScope provider

/-! ### The texts -/

theorem utf8ByteSize_eq_sum (value : String) :
    value.utf8ByteSize = (value.toList.map Char.utf8Size).sum := by
  rw [← utf8ByteSize_ofList, String.ofList_toList]

/-- The part a text becomes. -/
abbrev part (value : String) : List Char := framed Char.utf8Size ':' value.toList

theorem readable_part : Readable Anything part := by
  intro a a' r r' hr hr' heq
  obtain ⟨htext, hrest⟩ := readable_framed Char.utf8Size_pos (by decide) _ _ r r' hr hr' heq
  exact ⟨String.toList_inj.mp htext, hrest⟩

theorem appendPart_toList (output value : String) :
    (appendPart output value).toList = output.toList ++ part value := by
  simp only [appendPart, String.toList_append, Nat.toList_repr, part, framed, ← utf8ByteSize_eq_sum,
    List.append_assoc]
  rfl

theorem providerScope_toList (provider : CacheName) :
    (providerScope provider).toList =
      "vyuh-cache:v1:provider:".toList ++ (part provider.asStr ++ ":".toList) := by
  rw [providerScope, String.toList_append, appendPart_toList, List.append_assoc]

/-- The loop over namespaces appends a part for each. -/
theorem namespaces_toList : ∀ (namespaces : List String) (output output' : String),
    namespaces.foldlM (fun output value => do
      validateKey value maxNamespaceBytes
      pure (appendPart output value)) output = .ok output' →
      output'.toList = output.toList ++ namespaces.flatMap part
  | [], output, output', h => by
    obtain rfl := Except.ok.inj h
    rw [List.flatMap_nil, List.append_nil]
  | value :: namespaces, output, output', h => by
    rw [List.foldlM_cons, Step.except_bind_ok] at h
    obtain ⟨next, hone, hrest⟩ := h
    obtain ⟨_, -, hnext⟩ := Step.except_bind_ok.mp hone
    obtain rfl := Except.ok.inj hnext
    rw [namespaces_toList namespaces _ _ hrest, appendPart_toList, List.append_assoc, List.flatMap_cons]

theorem cacheKey_toList {provider : CacheName} {namespaces : List String} {key text : String}
    (h : cacheKey provider namespaces key = .ok text) :
    text.toList = (providerScope provider).toList ++ ("ns:".toList ++ (Nat.toDigits 10 namespaces.length ++
      (":".toList ++ (namespaces.flatMap part ++ ("key:".toList ++ part key))))) := by
  obtain ⟨_, -, h⟩ := Step.except_bind_ok.mp h
  split at h
  · exact nomatch h
  · obtain ⟨output, hloop, h⟩ := Step.except_bind_ok.mp h
    obtain rfl := Except.ok.inj h
    rw [appendPart_toList, String.toList_append, namespaces_toList _ _ _ hloop]
    simp only [String.toList_append, Nat.toList_repr, List.append_assoc]

/-! ### Keys and scopes -/

theorem readable_providerScope : Readable Anything (fun provider => (providerScope provider).toList) := by
  intro p p' r r' _ _ heq
  simp only [providerScope_toList, List.append_assoc] at heq
  obtain ⟨hname, hrest⟩ := readable_part _ _ _ _ trivial trivial (List.append_cancel_left heq)
  refine ⟨?_, List.append_cancel_left hrest⟩
  cases p
  cases p'
  exact congrArg CacheName.mk hname

theorem cacheKey_injective {p p' : CacheName} {ns ns' : List String} {key key' text : String}
    (h : cacheKey p ns key = .ok text) (h' : cacheKey p' ns' key' = .ok text) :
    p = p' ∧ ns = ns' ∧ key = key' := by
  have hcolon : ∀ rest, Outside Char.isDigit (":".toList ++ rest) := by
    intro rest c hc
    obtain rfl := Option.some.inj hc
    rfl
  have heq := (cacheKey_toList h).symm.trans (cacheKey_toList h')
  obtain ⟨hscope, hcount⟩ := readable_providerScope _ _ _ _ trivial trivial heq
  obtain ⟨hlength, hparts⟩ := readable_digits _ _ _ _ (hcolon _) (hcolon _) (List.append_cancel_left hcount)
  obtain ⟨hns, hend⟩ := readable_part.flatMap _ _ _ _ hlength (List.append_cancel_left hparts)
  exact ⟨hscope, hns, readable_part.injective trivial (List.append_cancel_left hend)⟩

theorem startsWith_cacheScope {p q : CacheName} {ns : List String} {key text : String}
    (h : cacheKey p ns key = .ok text) : text.startsWith (cacheScope q) = true ↔ p = q := by
  rw [String.startsWith_string_iff, cacheKey_toList h, cacheScope]
  constructor
  · intro hprefix
    exact (readable_providerScope.of_prefix hprefix).symm
  · rintro rfl
    exact List.prefix_append _ _

variable [Host]

/-- Clearing a scope keeps what is stored outside of it. -/
theorem held_clear (cache : MemoryCache) (scope key : String) (asked now : Instant) :
    (cache.exec ⟨.clear scope, asked, now⟩).2.held key =
      if key.startsWith scope then none else cache.held key := by
  simp only [MemoryCache.exec, MemoryCache.held, MemoryState.retain, MemoryState.compactLru_entries,
    Dict.lookup_filter]
  cases cache.store.entries.lookup key with
  | none => simp
  | some stored => by_cases hs : key.startsWith scope = true <;> simp [hs]

/-- CORRECT: canonical keys are equal only for equal providers, namespaces and keys; a key begins with a
    provider's scope exactly when it is the provider's; so clearing a provider takes all that is stored
    under its keys and nothing that is stored under another's. -/
theorem cache_keys_do_not_collide :
    (∀ p p' ns ns' key key' text, cacheKey p ns key = .ok text → cacheKey p' ns' key' = .ok text →
      p = p' ∧ ns = ns' ∧ key = key') ∧
    (∀ p q ns key text, cacheKey p ns key = .ok text → (text.startsWith (cacheScope q) = true ↔ p = q)) ∧
    ∀ (cache : MemoryCache) p q ns key text asked now, cacheKey q ns key = .ok text →
      (cache.exec ⟨.clear (cacheScope p), asked, now⟩).2.held text =
        if q = p then none else cache.held text := by
  refine ⟨fun _ _ _ _ _ _ _ => cacheKey_injective, fun _ _ _ _ _ => startsWith_cacheScope, ?_⟩
  intro cache p q ns key text asked now h
  rw [held_clear]
  by_cases hq : q = p
  · rw [if_pos hq, if_pos ((startsWith_cacheScope h).mpr hq)]
  · rw [if_neg hq, if_neg fun hs => hq ((startsWith_cacheScope h).mp hs)]

omit [Host] in
/-- A key that imitates the separators is outside the scope of every other provider. -/
theorem cache_keys_do_not_collide_default :
    "vyuh-cache:v1:provider:7:default::ns:1:6:tenant:key:6:3:one::".startsWith (cacheScope ⟨"second"⟩) =
      false := by
  have hkey : cacheKey ⟨"default"⟩ ["tenant"] "3:one:" =
      .ok "vyuh-cache:v1:provider:7:default::ns:1:6:tenant:key:6:3:one::" := by
    decide +kernel
  have hscope := (@cache_keys_do_not_collide ⟨0, id, List.Perm.refl⟩).2.1 _ ⟨"second"⟩ _ _ _ hkey
  rw [Bool.eq_false_iff, ne_eq, hscope]
  decide

end Vyuh.Cache
