import PhonePostMix.Server.Connection

/-! The assets compiled into the plugin and the paths that lead to them. -/

namespace Ppm.Engine
open Http Server

structure Resource where
  originalFilename : List UInt8
  data : List UInt8

def namedResources (indexHtml appJs : List UInt8) : List Resource :=
  [⟨ascii "index.html", indexHtml⟩, ⟨ascii "app.js", appJs⟩]

def assetFile (path : List UInt8) : Except Exception (List UInt8) :=
  if path = ascii "/" then .ok (ascii "index.html") else substr path 1 none

def resolveAsset (resources : List Resource) (path : List UInt8) :
    Except Exception (Option Asset) := do
  let file ← assetFile path
  match resources.find? (fun r => file = r.originalFilename) with
  | none => return none
  | some r => return some { data := r.data, mimeType := ← mimeTypeForPath file }

def NamesAsset (resources : List Resource) (path : List UInt8) : Prop :=
  path = ascii "/" ∨ ∃ r ∈ resources, path = ascii "/" ++ r.originalFilename

/-- The path lacks its leading slash, and what follows its first byte is an asset's name. -/
def MislaidSlash (resources : List Resource) (path : List UInt8) : Prop :=
  ∃ c file, path = c :: file ∧ c ≠ 0x2f ∧ ∃ r ∈ resources, file = r.originalFilename

theorem mimeTypeForPath_total (path : List UInt8) : Total (mimeTypeForPath path) := by
  unfold mimeTypeForPath
  split
  · exact ⟨_, rfl⟩
  · exact Total.bind (substr_ok (by omega) _) fun extension => Total.pure _

theorem find?_named_isSome (resources : List Resource) (file : List UInt8) :
    (resources.find? (fun r => file = r.originalFilename)).isSome ↔
      ∃ r ∈ resources, file = r.originalFilename := by
  simp [List.find?_isSome]

theorem resolveAsset_file (resources : List Resource) (path file : List UInt8)
    (hfile : assetFile path = .ok file) :
    ∃ asset, resolveAsset resources path = .ok asset ∧
      (asset.isSome ↔ ∃ r ∈ resources, file = r.originalFilename) := by
  unfold resolveAsset
  rw [hfile]
  simp only [bind, Except.bind]
  have hfind := find?_named_isSome resources file
  cases hr : resources.find? (fun r => file = r.originalFilename) with
  | none =>
    rw [hr] at hfind
    exact ⟨none, rfl, by simpa using hfind⟩
  | some r =>
    rw [hr] at hfind
    obtain ⟨mimeType, hmime⟩ := mimeTypeForPath_total file
    dsimp only
    rw [hmime]
    exact ⟨_, rfl, by simpa using hfind⟩

theorem assetFile_ok {path : List UInt8} (h : path ≠ []) : ∃ file, assetFile path = .ok file := by
  obtain ⟨c, rest, rfl⟩ := List.exists_cons_of_ne_nil h
  unfold assetFile
  split_ifs
  · exact ⟨_, rfl⟩
  · exact ⟨rest, substr_one _⟩

theorem resolveAsset_nil (resources : List Resource) :
    resolveAsset resources [] = .error .outOfRange := by
  have hslash : ([] : List UInt8) ≠ ascii "/" := by decide
  rw [resolveAsset, assetFile, if_neg hslash]
  rfl

theorem namesAsset_cons {resources : List Resource} {c : UInt8} {file : List UInt8}
    (hroot : c :: file ≠ ascii "/") : NamesAsset resources (c :: file) ↔
      c = 0x2f ∧ ∃ r ∈ resources, file = r.originalFilename := by
  have hslash : ascii "/" = [0x2f] := by decide
  rw [NamesAsset, or_iff_right hroot]
  simp only [hslash, List.cons_append, List.nil_append, List.cons.injEq]
  constructor
  · rintro ⟨r, hr, hc, hf⟩
    exact ⟨hc, r, hr, hf⟩
  · rintro ⟨hc, r, hr, hf⟩
    exact ⟨r, hr, hc, hf⟩

theorem mislaidSlash_cons {resources : List Resource} {c : UInt8} {file : List UInt8} :
    MislaidSlash resources (c :: file) ↔
      c ≠ 0x2f ∧ ∃ r ∈ resources, file = r.originalFilename := by
  constructor
  · rintro ⟨d, file', hsplit, hd, hr⟩
    obtain ⟨rfl, rfl⟩ := List.cons.inj hsplit
    exact ⟨hd, hr⟩
  · rintro ⟨hd, hr⟩
    exact ⟨c, file, rfl, hd, hr⟩

theorem resolveAsset_root (indexHtml appJs : List UInt8) : ∃ asset,
    resolveAsset (namedResources indexHtml appJs) (ascii "/") = .ok asset ∧
      asset.isSome = true := by
  have hindex : ∃ r ∈ namedResources indexHtml appJs, ascii "index.html" = r.originalFilename :=
    ⟨_, List.mem_cons_self, rfl⟩
  obtain ⟨asset, hok, hsome⟩ := resolveAsset_file (namedResources indexHtml appJs) (ascii "/") _
    (by rw [assetFile, if_pos rfl])
  exact ⟨asset, hok, hsome.mpr hindex⟩

theorem resolveAsset_correct_iff (indexHtml appJs path : List UInt8) :
    (∃ asset, resolveAsset (namedResources indexHtml appJs) path = .ok asset ∧
      (asset.isSome ↔ NamesAsset (namedResources indexHtml appJs) path)) ↔
      path ≠ [] ∧ ¬ MislaidSlash (namedResources indexHtml appJs) path := by
  cases path with
  | nil => simp [resolveAsset_nil]
  | cons c file =>
    by_cases hroot : c :: file = ascii "/"
    · -- the root stands for index.html, which the build always compiles in
      obtain ⟨asset, hok, hsome⟩ := resolveAsset_root indexHtml appJs
      have hc : c = 0x2f := (List.cons.inj hroot).1
      rw [← hroot] at hok
      refine iff_of_true ⟨asset, hok, iff_of_true hsome (.inl hroot)⟩ ⟨by simp, ?_⟩
      exact fun hmislaid => (mislaidSlash_cons.mp hmislaid).1 hc
    · obtain ⟨asset, hok, hsome⟩ := resolveAsset_file (namedResources indexHtml appJs)
        (c :: file) file (by rw [assetFile, if_neg hroot, substr_one])
      rw [mislaidSlash_cons]
      constructor
      · rintro ⟨asset', hok', hiff⟩
        obtain rfl : asset = asset' := Except.ok.inj (hok.symm.trans hok')
        refine ⟨by simp, fun ⟨hd, hr⟩ => hd ?_⟩
        exact ((namesAsset_cons hroot).mp (hiff.mp (hsome.mpr hr))).1
      · rintro ⟨-, hnot⟩
        refine ⟨asset, hok, hsome.trans ?_⟩
        rw [namesAsset_cons hroot]
        constructor
        · intro hr
          exact ⟨by_contra fun hd => hnot ⟨hd, hr⟩, hr⟩
        · exact fun h => h.2

end Ppm.Engine
