import SaltOS.Base.Aside
import SaltOS.Repo.IndexRoundTrip
import SaltOS.Repo.Published
import SaltOS.Repo.SyncExact

/-!
# What is published is synced

A client that has the public key of the publisher installs the index that was
published: one entry for each archive, and each file that an entry names has
the digest that the entry gives.
-/

namespace SaltOS.Repo

open Lib Util Disk Pkg Toml

/-! ## What can be published -/

/-- A text that the index can hold: it is printed between quotes as it is. -/
structure Printable (key : String) (text : Bytes) : Prop where
  noNul : 0 ∉ text
  plain : PlainText text
  fits : FitsLine key text

instance (key : String) (text : Bytes) : Decidable (Printable key text) :=
  decidable_of_iff (0 ∉ text ∧ PlainText text ∧ FitsLine key text)
    ⟨fun both => ⟨both.1, both.2.1, both.2.2⟩,
      fun printable => ⟨printable.noNul, printable.plain, printable.fits⟩⟩

/-- An archive whose entry can be printed and is accepted. -/
structure Publishable (urlBase file data : Bytes) (pkg : PkgMeta) :
    Prop where
  named : pkg.name ≠ []
  versioned : pkg.version ≠ []
  name : Printable "name" pkg.name
  version : Printable "version" pkg.version
  releaseLow : -2 ^ 31 ≤ pkg.release
  releaseHigh : pkg.release < 2 ^ 31
  arch : Printable "arch" pkg.arch
  filename : Printable "filename" file
  url : urlBase ≠ [] → Printable "url" (urlText urlBase file)
  size : data.length < 2 ^ 63
  summary : 0 ∉ pkg.summary.getD []
  deps : ∀ dep ∈ pkg.deps, 0 ∉ dep
  conflicts : ∀ conflict ∈ pkg.conflicts, 0 ∉ conflict

theorem Printable.bufPrintf_eq {key : String} {text : Bytes}
    (printable : Printable key text) : bufPrintf text = text := by
  apply SaltOS.bufPrintf_eq
  have fits := printable.fits
  unfold FitsLine at fits
  omega

/-- The entry of an archive, as it is published. -/
def publishedEntry (publisher : Publisher) (urlBase name data : Bytes)
    (pkg : PkgMeta) : Entry :=
  { entryOf publisher name data pkg with
    url := if urlBase = [] then none
      else some (bufPrintf (urlText urlBase name)) }

section

variable {publisher : Publisher} {behind : Tar.Entry → UInt8} {fuel : Nat}
  {disk after : Disk Bytes} {packagesDir : Bytes} {base top : Loc}
  {urlBase repoName arch outDir secHex : Bytes} {index : Index}

theorem withUrls_lists
    (lists : Lists (entryOf publisher) behind fuel disk packagesDir base
      index.items) :
    Lists (publishedEntry publisher urlBase) behind fuel disk packagesDir base
      (withUrls urlBase index).items := by
  by_cases noBase : urlBase = []
  · have same : publishedEntry publisher urlBase = entryOf publisher := by
      funext name data pkg
      rw [publishedEntry, if_pos noBase]
      rfl
    rw [same, withUrls, if_pos noBase]
    exact lists
  · rw [withUrls, if_neg noBase]
    constructor
    · rw [List.map_map]
      exact lists.distinct
    · intro entry
      rw [List.mem_map]
      constructor
      · intro given
        obtain ⟨known, member, rfl⟩ := given
        obtain ⟨name, data, archive, holds, rfl⟩ :=
          (lists.entries known).mp member
        refine ⟨name, data, archive, holds, ?_⟩
        rw [publishedEntry, if_neg noBase]
        rfl
      · intro given
        obtain ⟨name, data, archive, holds, isEntry⟩ := given
        refine ⟨_, (lists.entries _).mpr ⟨name, data, archive, holds, rfl⟩, ?_⟩
        rw [isEntry, publishedEntry, if_neg noBase]
        rfl

theorem withUrls_header (urlBase : Bytes) (index : Index) :
    (withUrls urlBase index).repoName = index.repoName ∧
      (withUrls urlBase index).arch = index.arch := by
  unfold withUrls
  split
  · exact ⟨rfl, rfl⟩
  · exact ⟨rfl, rfl⟩

/-! ## The entries are well formed -/

theorem publishedEntry_wellFormed {name data : Bytes} {pkg : PkgMeta}
    (publishable : Publishable urlBase name data pkg) :
    (publishedEntry publisher urlBase name data pkg).WellFormed where
  name := publishable.name.noNul
  version := publishable.version.noNul
  releaseLow := publishable.releaseLow
  releaseHigh := publishable.releaseHigh
  arch := publishable.arch.noNul
  filename := publishable.filename.noNul
  url := by
    intro url isUrl
    rw [publishedEntry] at isUrl
    dsimp only at isUrl
    split at isUrl
    · cases isUrl
    · rename_i hasBase
      have printable := publishable.url hasBase
      rw [printable.bufPrintf_eq] at isUrl
      rw [← Option.some.inj isUrl]
      refine ⟨?_, printable.noNul⟩
      simp [urlText, hasBase]
  sha256 := not_mem_hexEncode (by decide) _
  size := publishable.size
  summary := publishable.summary
  deps := publishable.deps
  conflicts := publishable.conflicts

variable (digests : ∀ data, (publisher.digest data).length = 32)

include digests

/-- Every string of the entry is printed as it is. -/
theorem publishedEntry_printed {name data : Bytes} {pkg : PkgMeta}
    (publishable : Publishable urlBase name data pkg) :
    ∀ field ∈ (publishedEntry publisher urlBase name data pkg).printed,
      FitsLine field.1 field.2 ∧ PlainText field.2 := by
  have hash : FitsLine "sha256" (hexEncode (publisher.digest data)) ∧
      PlainText (hexEncode (publisher.digest data)) := by
    constructor
    · unfold FitsLine
      rw [hexEncode_length, digests]
      decide
    · exact ⟨not_mem_hexEncode (by decide) _, not_mem_hexEncode (by decide) _,
        not_mem_hexEncode (by decide) _⟩
  intro field member
  simp only [Entry.printed, publishedEntry, entryOf, List.cons_append,
    List.nil_append, List.mem_cons, Option.mem_toList,
    Option.map_eq_some_iff] at member
  rcases member with rfl | rfl | rfl | rfl | rfl | ⟨url, isUrl, rfl⟩
  · exact ⟨publishable.name.fits, publishable.name.plain⟩
  · exact ⟨publishable.version.fits, publishable.version.plain⟩
  · exact ⟨publishable.arch.fits, publishable.arch.plain⟩
  · exact ⟨publishable.filename.fits, publishable.filename.plain⟩
  · exact hash
  · split at isUrl
    · cases isUrl
    · rename_i hasBase
      have printable := publishable.url hasBase
      rw [printable.bufPrintf_eq] at isUrl
      rw [← Option.some.inj isUrl]
      exact ⟨printable.fits, printable.plain⟩

theorem publishedEntry_complete {name data : Bytes} {archive : Archive}
    (holds : Holds behind fuel disk packagesDir base name data archive)
    (publishable : Publishable urlBase name data archive.pkg) :
    Sync.Complete
      (publishedEntry publisher urlBase name data archive.pkg) := by
  have valid : ValidName name :=
    FileSystem.validName_of_mem holds.listed name List.mem_cons_self
  exact ⟨publishable.named, publishable.versioned, valid.1,
    ⟨valid.2.2.2, valid.2.2.1⟩, isHex_hexEncode (digests data)⟩

/-- The index that is published can be read back and is accepted. -/
theorem index_of_lists
    (published : ∀ name data archive,
      Holds behind fuel disk packagesDir base name data archive →
        Publishable urlBase name data archive.pkg)
    (repo : Printable "repo" repoName) (isArch : Printable "arch" arch)
    (isRepo : index.repoName = some repoName)
    (hasArch : index.arch = some arch)
    (lists : Lists (publishedEntry publisher urlBase) behind fuel disk
      packagesDir base index.items) :
    index.RoundTrips ∧ ∀ entry ∈ index.items, Sync.Complete entry := by
  have wellFormed : index.WellFormed := by
    refine ⟨?_, ?_, ?_⟩
    · rw [isRepo]
      exact repo.noNul
    · rw [hasArch]
      exact isArch.noNul
    · intro entry member
      obtain ⟨name, data, archive, holds, rfl⟩ :=
        (lists.entries entry).mp member
      exact publishedEntry_wellFormed (published _ _ _ holds)
  have plain : index.Plain := by
    constructor
    · intro field member _
      refine ⟨field.2, PlainText.spells ?_⟩
      simp only [Index.printed, isRepo, hasArch, Option.getD_some,
        List.mem_cons, List.not_mem_nil, or_false] at member
      rcases member with rfl | rfl
      · exact repo.plain
      · exact isArch.plain
    · intro entry member
      obtain ⟨name, data, archive, holds, rfl⟩ :=
        (lists.entries entry).mp member
      exact publishedEntry_printed digests (published _ _ _ holds)
  refine ⟨plain.roundTrips wellFormed, ?_⟩
  intro entry member
  obtain ⟨name, data, archive, holds, rfl⟩ := (lists.entries entry).mp member
  exact publishedEntry_complete digests holds (published _ _ _ holds)

end

/-! ## What publishing writes -/

section

variable {publisher : Publisher} {behind : Tar.Entry → UInt8} {fuel : Nat}
  {disk after : Disk Bytes} {top : Loc}
  {urlBase repoName arch outDir secHex : Bytes}

/-- The directory of the archives, and the two files that are written. -/
def packagesName : Name := ascii "packages"

def indexName : Name := ascii "index.toml"

def indexSigName : Name := ascii "index.toml.sig"

/-- What a publication leaves on the disk. -/
structure Publication (publisher : Publisher) (outDir secHex : Bytes)
    (top : Loc) (before after : Disk Bytes) (text sig : Bytes) : Prop where
  rooted : Rooted after outDir top
  signed : signBuf publisher text secHex = .ok sig
  nodes : ∀ loc, after.fs.node? loc =
    if loc = indexSigName :: top then some (.file sig 420)
    else if loc = indexName :: top then some (.file text 420)
    else before.fs.node? loc

theorem orFail_ends {α : Type} {program : EStateM Failure (Disk Bytes) α}
    {good : α → Disk Bytes → Prop}
    (ends : Ends (program disk) good (fun _ _ => True)) :
    Ends (orFail program disk) good (fun _ _ => True) := by
  unfold orFail EStateM.adaptExcept
  cases outcome : program disk with
  | error failure final => trivial
  | ok value final =>
      rw [outcome] at ends
      exact ends

theorem publish_ends (rooted : Rooted disk outDir top) (keyed : secHex ≠ []) :
    Ends (publish publisher behind fuel outDir repoName arch urlBase secHex
        disk)
      (fun _ after => ∃ index sig,
        buildIndex publisher behind fuel disk (joinPath outDir packagesName)
          repoName arch = .ok index ∧
        Publication publisher outDir secHex top disk after
          (indexToToml (withUrls urlBase index)) sig)
      (fun _ _ => True) := by
  have indexValid : ValidName indexName := by decide
  have sigValid : ValidName indexSigName := by decide
  unfold publish
  apply Ends.bindOk rfl
  cases built : buildIndex publisher behind fuel disk
    (joinPath outDir (ascii "packages")) repoName arch with
  | error stop => exact Ends.throw trivial
  | ok index =>
      dsimp only
      apply Ends.bind (orFail_ends (rooted.stands.writeFile
        (Under.name rooted.nonempty indexValid) (Names.single indexValid)
        rooted.isDir _ 420))
      intro _ between wroteIndex
      have betweenRooted := wroteIndex.rooted rooted
      rw [if_neg keyed]
      cases signed : signBuf publisher (indexToToml (withUrls urlBase index))
        secHex with
      | error failure => exact Ends.throw trivial
      | ok sig =>
          dsimp only
          apply Ends.mono (orFail_ends (betweenRooted.stands.writeFile
            (Under.name rooted.nonempty sigValid) (Names.single sigValid)
            betweenRooted.isDir _ 420)) _ (fun _ _ _ => trivial)
          intro _ after wroteSig
          refine ⟨index, sig, built, wroteSig.rooted betweenRooted, signed, ?_⟩
          intro loc
          rw [wroteSig.nodes, wroteIndex.nodes]
          rfl

end

/-! ## What a client fetches -/

section

variable {publisher : Publisher} {behind : Tar.Entry → UInt8} {fuel : Nat}
  {disk after : Disk Bytes} {top : Loc} {comps : List Name}
  {urlBase repoName arch outDir secHex root : Bytes} {env : Sync.Env}
  {conf : Sync.RepoConf} {http : Bytes → Except Bytes Bytes}

/-- The source of the client is the directory of the publisher. -/
structure Points (env : Sync.Env) (conf : Sync.RepoConf) (outDir : Bytes) :
    Prop where
  source : conf.source ≠ []
  noTrailing : outDir.getLast? ≠ some 47
  path : ∀ file, localPath (Sync.repoUrl env conf file) =
    some (outDir ++ [47] ++ file)

/-- The files of the directory are fetched. -/
theorem Points.fetch_file (points : Points env conf outDir)
    (fetches : ∀ url, env.fetch url = fetch http after url)
    (rooted : Rooted after outDir top) (names : Names comps) {data : Bytes}
    {mode : Nat}
    (found : after.fs.node? (descend top comps) = some (.file data mode)) :
    env.fetch (Sync.repoUrl env conf (joinSlash comps)) = .ok data := by
  have under : Under outDir (outDir ++ [47] ++ joinSlash comps)
      (components (joinSlash comps)) :=
    Under.of_slash rooted.nonempty points.noTrailing
  rw [components_names names] at under
  rw [fetches, fetch, points.path]
  dsimp only
  rw [rooted.stands.contents under names found]

/-- `src` of `fetch_and_verify`. -/
def sourceUrl (env : Sync.Env) (conf : Sync.RepoConf) (entry : Entry) :
    Bytes :=
  if entry.url.getD [] ≠ [] then entry.url.getD []
  else Sync.repoUrl env conf (ascii "packages/" ++ entry.filename)

/-- What is fetched for an entry is what the entry says. -/
structure Downloads (publisher : Publisher) (env : Sync.Env)
    (conf : Sync.RepoConf) (entry : Entry) (data : Bytes) : Prop where
  fetched : env.fetch (sourceUrl env conf entry) = .ok data
  sha256 : hexEncode (publisher.digest data) = entry.sha256
  size : data.length = entry.size

/-- The archives stand in the directory of the publisher as plain files. -/
structure Regular (disk : Disk Bytes) (top : Loc) : Prop where
  isDir : disk.fs.IsDir (packagesName :: top)
  files : ∀ name node, isGrain name = true →
    disk.fs.node? (name :: packagesName :: top) = some node →
      ∃ data mode, node = .file data mode

theorem downloads_of_holds {name data sig text : Bytes} {archive : Archive}
    (rooted : Rooted disk outDir top) (regular : Regular disk top)
    (publication : Publication publisher outDir secHex top disk after text
      sig)
    (points : Points env conf outDir)
    (fetches : ∀ url, env.fetch url = fetch http after url)
    (holds : Holds behind fuel disk (joinPath outDir packagesName)
      (packagesName :: top) name data archive) :
    Downloads publisher env conf
      (publishedEntry publisher [] name data archive.pkg) data := by
  have valid : ValidName name :=
    FileSystem.validName_of_mem holds.listed name List.mem_cons_self
  have packagesValid : ValidName packagesName := by decide
  have names : Names [packagesName, name] :=
    ⟨List.cons_ne_nil _ _, by simp [packagesValid, valid]⟩
  obtain ⟨node, found⟩ := Option.ne_none_iff_exists'.mp holds.listed
  obtain ⟨stored, mode, rfl⟩ := regular.files name node holds.isGrain found
  have under : Under outDir (joinPath (joinPath outDir packagesName) name)
      ([packagesName] ++ components name) :=
    (Under.name rooted.nonempty packagesValid).join
      (Names.single packagesValid) valid.1
      fun slash => valid.2.2.2 (List.mem_of_mem_head? slash)
  rw [components_of_valid valid] at under
  obtain rfl : stored = data := by
    have isRead := rooted.stands.contents under names found
    exact Except.ok.inj (isRead.symm.trans holds.contents)
  have kept : after.fs.node? (descend top [packagesName, name]) =
      some (.file stored mode) := by
    have lengths : ∀ other : Name,
        descend top [packagesName, name] ≠ other :: top := by
      intro other same
      simpa [Lib.descend] using congrArg List.length same
    rw [publication.nodes, if_neg (lengths _), if_neg (lengths _)]
    exact found
  have fetched := points.fetch_file fetches publication.rooted names kept
  have file : joinSlash [packagesName, name] = ascii "packages/" ++ name := by
    simp [joinSlash, packagesName, ascii]
  rw [file] at fetched
  exact ⟨fetched, rfl, rfl⟩

/-! ## From the publisher to the client -/

variable {state : Sync.State}

/-- What is published is offered to the client. -/
theorem Publication.offers {text sig key : Bytes}
    (publication : Publication publisher outDir secHex top disk after text
      sig)
    (points : Points env conf outDir)
    (fetches : ∀ url, env.fetch url = fetch http after url)
    (pair : KeyPair publisher env secHex key) :
    Sync.Offers env conf key text sig where
  source := points.source
  isBody := by
    have differs : indexName :: top ≠ indexSigName :: top := by
      intro same
      have names : indexName ≠ indexSigName := by decide
      exact names (List.cons.inj same).1
    have found : after.fs.node? (Lib.descend top [indexName]) =
        some (.file text 420) := by
      rw [publication.nodes]
      exact (if_neg differs).trans (if_pos rfl)
    exact points.fetch_file fetches publication.rooted
      (Names.single (by decide : ValidName indexName)) found
  isSig := by
    have found : after.fs.node? (Lib.descend top [indexSigName]) =
        some (.file sig 420) := by
      rw [publication.nodes]
      exact if_pos rfl
    exact points.fetch_file fetches publication.rooted
      (Names.single (by decide : ValidName indexSigName)) found
  signs := pair.verifyBuf_ok publication.signed

/-- A complete index that is offered is synced. -/
theorem offered_synced {text sig : Bytes} {index : Index}
    (offers : Sync.Offers env conf (Sync.readKey state.files conf.key) text
      sig)
    (renames : ∀ path, env.renameFails path = false)
    (trusted : Sync.Trusted env root conf state)
    (parses : Returns (fun rounds => indexLoad 0 rounds text) index)
    (complete : ∀ entry ∈ index.items, Sync.Complete entry) :
    ∃ bound, ∀ rounds, bound ≤ rounds → ∃ final,
      Sync.cmdSync env root conf rounds state = .ok () final ∧
        Sync.Synced env root conf state final text sig index := by
  have safe : Sync.SyncSafe env root conf state := by
    apply Sync.safe_of_reported renames trusted
    intro body otherSig other otherOffers otherParses
    obtain rfl : text = body :=
      Except.ok.inj (offers.isBody.symm.trans otherOffers.isBody)
    obtain rfl : index = other := parses.unique otherParses
    intro missing
    obtain ⟨entry, member, incomplete⟩ := missing
    exact absurd (complete entry member) incomplete
  obtain ⟨bound, loads⟩ := parses
  refine ⟨bound, ?_⟩
  intro rounds enough
  have passes : Sync.indexVerify index = [] := by
    rw [Sync.indexVerify_eq_nil_iff]
    intro position entry isEntry problem isProblem
    have member := List.mem_of_getElem? isEntry
    rw [Sync.entryProblem_eq_none_iff.mpr (complete entry member)]
      at isProblem
    cases isProblem
  have ends := (safe.ends rounds).and
    (Sync.cmdSync_ends rounds renames trusted)
  cases outcome : Sync.cmdSync env root conf rounds state with
  | error stopped final =>
      rw [outcome] at ends
      exact absurd passes
        (ends.2.2 text sig index offers (loads rounds enough))
  | ok done final =>
      rw [outcome] at ends
      obtain ⟨body, otherSig, other, synced⟩ := ends.1
      obtain rfl : body = text :=
        Except.ok.inj (synced.fetched.symm.trans offers.isBody)
      obtain rfl : otherSig = sig :=
        Except.ok.inj (synced.fetchedSig.symm.trans offers.isSig)
      obtain rfl : other = index :=
        synced.parses.unique ⟨bound, loads⟩
      exact ⟨final, rfl, synced⟩

end

/-! ## A repository with one package -/

/-- Keys and signatures that all are alike. -/
def plainPublisher : Publisher where
  digest _ := List.replicate 32 0
  sodiumInit := true
  signDetached _ _ := List.replicate 64 7

def plainSecret : Bytes := hexEncode (List.replicate 64 1)

def plainPublic : Bytes := hexEncode (List.replicate 32 2)

def shopArchive : Archive := ⟨Archive.smallPkg, [], [], []⟩

/-- The directory of a publisher, with one archive. -/
def shopDisk : Disk Bytes :=
  finalState ((writeFile (ascii "/srv/x86_64/packages/a-1.grain")
    shopArchive.write 420 : EStateM Failure (Disk Bytes) Unit)
      ⟨.bare Bytes, [], []⟩)

def shopTop : Loc := [ascii "x86_64", ascii "srv"]

def shopPublish : EStateM PublishError (Disk Bytes) Unit :=
  publish plainPublisher (fun _ => 0) 3 (ascii "/srv/x86_64") (ascii "core")
    (ascii "x86_64") [] plainSecret

theorem shop_publishes : succeeded (shopPublish shopDisk) = true := by
  decide +kernel

/-- A client that fetches from the directory of the publisher. -/
def shopEnv (after : Disk Bytes) : Sync.Env where
  arch := ascii "x86_64"
  fetch := fetch (fun _ => .error []) after
  renameFails _ := false
  sodiumInit := true
  verifyDetached signature _ key :=
    signature = List.replicate 64 7 ∧ key = List.replicate 32 2

def shopConf : Sync.RepoConf := ⟨ascii "/srv", plainPublic⟩

theorem shopEnv_points (after : Disk Bytes) :
    Points (shopEnv after) shopConf (ascii "/srv/x86_64") where
  source := by decide
  noTrailing := by decide
  path _ := rfl

theorem plain_pair (after : Disk Bytes) :
    KeyPair plainPublisher (shopEnv after) plainSecret
      (Sync.readKey Sync.emptyState.files shopConf.key) where
  init := rfl
  length _ _ := List.length_replicate
  verifies := by
    refine ⟨List.replicate 32 2, by decide +kernel, ?_⟩
    intro secret _ data
    simp [shopEnv, plainPublisher]

theorem shopEnv_trusted (after : Disk Bytes) :
    Sync.Trusted (shopEnv after) [] shopConf Sync.emptyState where
  key := by decide +kernel
  apart := by
    have paths : Sync.syncPaths (shopEnv after) [] =
        Sync.syncPaths (shopEnv ⟨.bare Bytes, [], []⟩) [] :=
      rfl
    rw [paths]
    decide +kernel

theorem shopArchive_wellFormed : shopArchive.WellFormed where
  pkg := Archive.smallPkg_wellFormed
  manifest := by simp [shopArchive]
  pkgSize := by decide +kernel
  manifestSize := by decide
  payloadSize := by decide

theorem shopArchive_publishable {data : Bytes} (small : data.length < 2 ^ 63) :
    Publishable [] (ascii "a-1.grain") data shopArchive.readBack.pkg where
  named := by decide
  versioned := by decide
  name := by decide
  version := by decide
  releaseLow := by decide
  releaseHigh := by decide
  arch := by decide
  filename := by decide
  url hasBase := absurd rfl hasBase
  size := small
  summary := by decide
  deps := by decide
  conflicts := by decide

end SaltOS.Repo
