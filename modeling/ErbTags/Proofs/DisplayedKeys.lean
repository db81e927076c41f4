import ErbTags.Config
import ErbTags.Proofs.StoresAgree

/-!
# Keys that can be told from their text

A displayed key is its three parts with colons between them, and nothing is escaped. The identity
may hold anything, so the parts can only be told from the two ends: the scope of settings that are
allowed holds no colon and ends at the first one, and every fingerprint has 64 characters. What is
between is the identity (`CacheKey.ofDisplay`). So two keys of sources, under scopes that are
allowed, are never displayed alike, and a store keeps them apart (`Memory.observe_of_validate`).
-/

namespace ErbTags

namespace Config

variable {c : Config}

theorem validate_eq_ok_iff : c.validate = .ok c ↔ c.invalid? = none := by
  unfold validate
  cases c.invalid? with
  | none => exact iff_of_true rfl rfl
  | some setting => exact iff_of_false nofun nofun

theorem colon_notMem_scope (h : c.validate = .ok c) : ':' ∉ c.scope.toList := by
  intro hcolon
  have hinvalid := validate_eq_ok_iff.1 h
  unfold invalid? at hinvalid
  rw [if_pos hcolon] at hinvalid
  split_ifs at hinvalid

end Config

namespace CacheKey

/-- The key that a text displays, if the scope holds no colon and the fingerprint has 64
characters. -/
def ofDisplay (displayed : String) : CacheKey :=
  let scope := displayed.toList.takeWhile (· ≠ ':')
  let rest := displayed.toList.drop (scope.length + 1)
  ⟨String.ofList scope, String.ofList (rest.take (rest.length - 65)),
    String.ofList (rest.drop (rest.length - 64))⟩

theorem toList_display (k : CacheKey) :
    k.display.toList =
      k.scope.toList ++ ':' :: (k.identity.toList ++ ':' :: k.fingerprint.toList) := by
  simp [display]

/-- A displayed key can be read back. -/
theorem ofDisplay_display {k : CacheKey} (hscope : ':' ∉ k.scope.toList)
    (hprint : k.fingerprint.toList.length = 64) : ofDisplay k.display = k := by
  have hfirst : k.display.toList.takeWhile (· ≠ ':') = k.scope.toList := by
    have hall : ∀ c ∈ k.scope.toList, decide (c ≠ ':') = true := by
      intro c hc
      exact decide_eq_true (ne_of_mem_of_not_mem hc hscope)
    rw [toList_display, List.takeWhile_append_of_pos hall]
    simp
  have hrest : k.display.toList.drop (k.scope.toList.length + 1) =
      k.identity.toList ++ ':' :: k.fingerprint.toList := by
    rw [toList_display, List.append_cons, List.drop_left' (by simp)]
  have hlength : (k.identity.toList ++ ':' :: k.fingerprint.toList).length =
      k.identity.toList.length + 65 := by
    rw [List.length_append, List.length_cons, hprint]
  have hidentity : (k.identity.toList ++ ':' :: k.fingerprint.toList).take
      (k.identity.toList.length + 65 - 65) = k.identity.toList := List.take_left' rfl
  have hlast : (k.identity.toList ++ ':' :: k.fingerprint.toList).drop
      (k.identity.toList.length + 65 - 64) = k.fingerprint.toList := by
    rw [List.append_cons]
    exact List.drop_left' (by simp)
  simp only [ofDisplay, hfirst, hrest, hlength, hidentity, hlast, String.ofList_toList]

theorem ofDisplay_display_ofSource {c : Config} (h : c.validate = .ok c)
    (identity source : String) :
    ofDisplay (ofSource c.scope identity source).display = ofSource c.scope identity source :=
  ofDisplay_display (Config.colon_notMem_scope h) (length_fingerprint source)

end CacheKey

/-- Keys of sources under scopes that are allowed are displayed alike just if they have the same
scope, the same identity and the same fingerprint, whatever the identities hold. -/
theorem display_eq_iff_of_validate {c c' : Config} (h : c.validate = .ok c)
    (h' : c'.validate = .ok c') (identity identity' source source' : String) :
    (CacheKey.ofSource c.scope identity source).display =
        (CacheKey.ofSource c'.scope identity' source').display ↔
      c.scope = c'.scope ∧ identity = identity' ∧ fingerprint source = fingerprint source' := by
  constructor
  · intro hdisplay
    have hkey : CacheKey.ofSource c.scope identity source =
        CacheKey.ofSource c'.scope identity' source' := by
      rw [← CacheKey.ofDisplay_display_ofSource h, hdisplay,
        CacheKey.ofDisplay_display_ofSource h']
    exact CacheKey.mk.inj hkey
  · rintro ⟨hscope, hidentity, hprint⟩
    rw [CacheKey.ofSource, CacheKey.ofSource, hscope, hidentity, hprint]

/-- An identity that ends like a displayed key is not taken for a shorter one. -/
theorem display_ne_of_fingerprint_in_identity :
    let c : Config := { Config.standard with scope := "pages" }
    let digits := String.ofList (List.replicate 64 '0')
    c.validate = .ok c ∧
      (CacheKey.ofSource c.scope ("a:b:" ++ digits) "x").display ≠
        (CacheKey.ofSource c.scope "a:b" "y").display := by
  intro c digits
  have hvalid : c.validate = .ok c := Config.validate_eq_ok_iff.2 (by decide +kernel)
  refine ⟨hvalid, ?_⟩
  intro hdisplay
  have hidentity := ((display_eq_iff_of_validate hvalid hvalid _ _ _ _).1 hdisplay).2.1
  exact absurd (congrArg String.length hidentity) (by decide)

theorem displayedApart_of_validate {keys : List CacheKey}
    (h : ∀ key ∈ keys, ∃ c : Config, c.validate = .ok c ∧
      ∃ identity source, key = .ofSource c.scope identity source) : DisplayedApart keys := by
  intro key hkey key' hkey' hdisplay
  obtain ⟨c, hc, identity, source, rfl⟩ := h key hkey
  obtain ⟨c', hc', identity', source', rfl⟩ := h key' hkey'
  rw [← CacheKey.ofDisplay_display_ofSource hc, hdisplay, CacheKey.ofDisplay_display_ofSource hc']

/-- The store in memory knows keys by their displayed texts, but answers requests for such keys as a
map from the keys themselves. -/
theorem Memory.observe_of_validate {requests : List Request}
    (h : ∀ key ∈ Request.keys requests, ∃ c : Config, c.validate = .ok c ∧
      ∃ identity source, key = .ofSource c.scope identity source) :
    Memory.store.observe List.length [] requests = mapObservations id [] requests := by
  obtain ⟨hdisplayed, -⟩ := remembers_nil.run requests
  rw [hdisplayed]
  exact mapObservations_display_eq (displayedApart_of_validate h) (List.nil_subset _)
    (List.Subset.refl _)

end ErbTags
