-- Digests are stripped by cutting the text before the first empty line, while manifests are read
-- line by line until one is empty. Both stop at the same place, as long as carriage returns belong
-- to line ends.
import JarDerivation.Jar.Fix
import JarDerivation.Proofs.Text.Lenient
import JarDerivation.Proofs.Text.Lines
import JarDerivation.Proofs.Text.Utf8
import Mathlib.Data.List.DropRight

namespace JarDerivation

namespace Signature

/-! ## Line ends at the end -/

theorem exists_trimLf (cs : List Char) : ∃ n, cs = trimLf cs ++ List.replicate n '\n' := by
  refine ⟨(cs.rtakeWhile (· == '\n')).length, ?_⟩
  have hall : ∀ c ∈ cs.rtakeWhile (· == '\n'), c = '\n' := by
    intro c hc
    have hc' := List.mem_rtakeWhile_imp hc
    exact beq_iff_eq.mp hc'
  rw [← List.eq_replicate_of_mem hall]
  exact List.rdropWhile_append_rtakeWhile.symm

theorem getLast?_trimLf (cs : List Char) : (trimLf cs).getLast? ≠ some '\n' := by
  intro h
  have hne : trimLf cs ≠ [] := by
    intro hnil
    rw [hnil] at h
    cases h
  rw [List.getLast?_eq_some_getLast hne, Option.some.injEq] at h
  exact List.rdropWhile_last_not (· == '\n') cs hne (beq_iff_eq.mpr h)

theorem trimLf_of_getLast? {cs : List Char} (h : cs.getLast? ≠ some '\n') : trimLf cs = cs := by
  refine List.rdropWhile_eq_self_iff.mpr fun hne hlast => h ?_
  rw [List.getLast?_eq_some_getLast hne, beq_iff_eq.mp hlast]

/-! ## The main section -/

/-- The text of the main section, from the characters of a manifest. -/
def mainText (cs : List Char) : List Char := trimLf (Text.firstSection cs)

theorem not_infix_mainText (cs : List Char) : ¬ ['\n', '\n'] <:+: mainText cs := by
  intro h
  obtain ⟨n, hn⟩ := exists_trimLf (Text.firstSection cs)
  refine Text.not_infix_firstSection cs (h.trans ?_)
  rw [hn]
  exact (List.prefix_append _ _).isInfix

theorem exists_rest_of_mainText (cs : List Char) :
    ∃ rest, cs ++ ['\n', '\n'] = mainText cs ++ '\n' :: '\n' :: rest := by
  obtain ⟨rest, hrest⟩ := Text.exists_rest_of_firstSection cs
  have hturn : ∀ n, List.replicate n '\n' ++ '\n' :: '\n' :: rest =
      '\n' :: '\n' :: (List.replicate n '\n' ++ rest) := by
    intro n
    induction n with
    | zero => rfl
    | succ n ih =>
      rw [List.replicate_succ, List.cons_append, ih]
      rfl
  obtain ⟨n, hn⟩ := exists_trimLf (Text.firstSection cs)
  refine ⟨List.replicate n '\n' ++ rest, ?_⟩
  calc cs ++ ['\n', '\n'] = Text.firstSection cs ++ '\n' :: '\n' :: rest := hrest
    _ = (mainText cs ++ List.replicate n '\n') ++ '\n' :: '\n' :: rest := by rw [mainText, ← hn]
    _ = _ := by rw [List.append_assoc, hturn]

theorem mainText_again (cs rest : List Char) :
    mainText (mainText cs ++ '\n' :: '\n' :: rest) = mainText cs := by
  have hlast : (mainText cs).getLast? ≠ some '\n' := getLast?_trimLf _
  rw [mainText, Text.firstSection_append (not_infix_mainText cs) hlast, trimLf_of_getLast? hlast]

/-- The lines of a manifest before the first empty one are those of its main section. -/
theorem mainFrom_mainText {cs : List Char} (h : '\r' ∉ cs) :
    Text.mainFrom [] (mainText cs ++ ['\n', '\n']) = Text.mainFrom [] cs := by
  obtain ⟨rest, hrest⟩ := exists_rest_of_mainText cs
  rw [← Text.mainFrom_append_empty [] (mainText cs) rest, ← hrest,
    Text.mainFrom_append_end List.not_mem_nil h]

theorem notMem_mainText {cs : List Char} (h : '\r' ∉ cs) : '\r' ∉ mainText cs := by
  obtain ⟨rest, hrest⟩ := exists_rest_of_mainText cs
  intro hmem
  have hin : '\r' ∈ cs ++ ['\n', '\n'] := hrest ▸ List.mem_append_left _ hmem
  simp [h] at hin

/-! ## What is written -/

theorem notMem_characters {manifest : Bytes} (h : Text.Paired 13 10 manifest) :
    '\r' ∉ Manifest.characters manifest :=
  Text.notMem_toLf (Utf8.paired_decodeLossy h)

theorem stripDigests_eq (manifest : Bytes) :
    stripDigests manifest = Utf8.encode (String.ofList
      (Text.toCrLf (mainText (Manifest.characters manifest)) ++ ['\r', '\n', '\r', '\n'])) := rfl

theorem characters_stripDigests {manifest : Bytes} (h : Text.Paired 13 10 manifest) :
    Manifest.characters (stripDigests manifest) =
      mainText (Manifest.characters manifest) ++ ['\n', '\n'] := by
  rw [stripDigests_eq, Manifest.characters, Utf8.decodeLossy_encode, String.toList_ofList,
    Text.toLf_toCrLf_append (notMem_mainText (notMem_characters h))]
  rfl

theorem attributes_stripDigests {manifest : Bytes} (h : Text.Paired 13 10 manifest) :
    Manifest.attributes (stripDigests manifest) = Manifest.attributes manifest := by
  have hsame := mainFrom_mainText (notMem_characters h)
  rw [← characters_stripDigests h] at hsame
  exact congrArg (fun ls => (ls.foldl Manifest.addLine []).reverse) hsame

theorem stripDigests_again {manifest : Bytes} (h : Text.Paired 13 10 manifest) :
    stripDigests (stripDigests manifest) = stripDigests manifest := by
  rw [stripDigests_eq (stripDigests manifest), characters_stripDigests h, mainText_again,
    ← stripDigests_eq]

/-! ## Two line ends -/

/-- Two line ends, one right after the other. -/
def emptyLine : Bytes := [13, 10, 13, 10]

theorem emptyLine_suffix_stripDigests (manifest : Bytes) : emptyLine <:+ stripDigests manifest := by
  rw [stripDigests_eq, Utf8.encode, String.toList_ofList, List.flatMap_append]
  exact List.suffix_append _ _

theorem characters_crLf (before after : Bytes) :
    Manifest.characters (before ++ 13 :: 10 :: after) =
      Manifest.characters before ++ '\n' :: Manifest.characters after := by
  unfold Manifest.characters
  have hlf : (Utf8.decodeLossy (10 :: after)).toList = '\n' :: (Utf8.decodeLossy after).toList :=
    Utf8.decodeLossy_ascii [] (by decide) after
  rw [Utf8.decodeLossy_ascii before (by decide) (10 :: after), hlf]
  exact Text.toLf_append_crLf _ _

theorem characters_eq_nil {bytes : Bytes} (h : Manifest.characters bytes = []) : bytes = [] :=
  Utf8.decodeLossy_eq_nil (Text.toLf_eq_nil h)

theorem characters_around_emptyLine (before after : Bytes) :
    Manifest.characters (before ++ emptyLine ++ after) =
      Manifest.characters before ++ '\n' :: '\n' :: Manifest.characters after := by
  have hends : before ++ emptyLine ++ after = (before ++ [13, 10]) ++ 13 :: 10 :: after := by
    simp [emptyLine]
  rw [hends, characters_crLf, characters_crLf]
  simp [Manifest.characters, Utf8.decodeLossy, Utf8.scalars, Utf8.parts, Utf8.scan, Text.toLf]

theorem nothing_after_emptyLine {manifest before after : Bytes} (h : Text.Paired 13 10 manifest)
    (heq : stripDigests manifest = before ++ emptyLine ++ after) : after = [] := by
  have hsplit := characters_around_emptyLine before after
  rw [← heq, characters_stripDigests h] at hsplit
  have hafter := Text.eq_nil_of_empty_line (not_infix_mainText _) (getLast?_trimLf _) hsplit
  exact characters_eq_nil hafter

/-- Where each carriage return belongs to a line end, stripping digests keeps what is read of the
manifest, leaves no section behind the first one, and has nothing to do a second time. -/
theorem stripping_digests_keeps_the_main_section {manifest : Bytes}
    (h : Text.Paired 13 10 manifest) :
    ∃ out, JarFix.stripSignatures.apply Manifest.entryName manifest = .ok (some out) ∧
      Manifest.attributes out = Manifest.attributes manifest ∧
      emptyLine <:+ out ∧ (∀ before after, out = before ++ emptyLine ++ after → after = []) ∧
      JarFix.stripSignatures.apply Manifest.entryName out = .ok (some out) := by
  have hstrip : ∀ bytes, strip Manifest.entryName bytes = some (stripDigests bytes) := by
    intro bytes
    rw [strip, if_neg (by decide), if_pos rfl]
  refine ⟨stripDigests manifest, congrArg Except.ok (hstrip _), attributes_stripDigests h,
    emptyLine_suffix_stripDigests manifest, fun before after => nothing_after_emptyLine h, ?_⟩
  exact congrArg Except.ok ((hstrip _).trans (congrArg some (stripDigests_again h)))

/-- Line ends of both kinds, a value that is cut by a line end, a damaged byte, and a section about
an entry. -/
def signedManifest : Bytes :=
  Utf8.encode "Built-By: " ++ [0xC3] ++
    Utf8.encode "\r\nClass-Path: a\n  b.jar\r\n\n\r\nName: a.class\r\nSHA1-Digest: eA==\r\n"

theorem a_signed_manifest_keeps_its_main_section :
    Text.Paired 13 10 signedManifest ∧
      ∃ out, JarFix.stripSignatures.apply Manifest.entryName signedManifest = .ok (some out) ∧
        Manifest.attributes out = Manifest.attributes signedManifest ∧
        emptyLine <:+ out ∧ (∀ before after, out = before ++ emptyLine ++ after → after = []) ∧
        JarFix.stripSignatures.apply Manifest.entryName out = .ok (some out) :=
  have hpaired : Text.Paired 13 10 signedManifest := by decide +kernel
  ⟨hpaired, stripping_digests_keeps_the_main_section hpaired⟩

end Signature

end JarDerivation
