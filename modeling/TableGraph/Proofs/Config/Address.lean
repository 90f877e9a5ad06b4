import TableGraph.Config.Basic
import TableGraph.Proofs.Decimal.Reading
import TableGraph.Proofs.Text.Cutting
import TableGraph.Proofs.Text.Escape

/-!
# Addresses and their parts

An address is built from its parts as they are. It is read by cutting it at its marks and by undoing
escapes, which never makes a part longer. So the parts are read back exactly if none of them has a
mark that cuts it short or an escape that makes it shorter.
-/

namespace TableGraph

/-- The parts of an address. -/
structure Address where
  /-- The user. -/
  username : String
  /-- The password, if there is one. -/
  password : Option String
  /-- The host. -/
  host : String
  /-- The port. -/
  portNumber : Nat
  /-- The database. -/
  database : String
  deriving DecidableEq

namespace Address

open Text (cut_append_cons cut_at_mark cut_iff cut_without_mark eq_kept_append_left
  eq_mark_of_dropWhile not_mem_takeWhile_ne decoded? IsLiteral bytes bytes_append bytes_cons)

/-- The characters in front of the last `mark` and those behind it. -/
def cutLast? (mark : Char) (cs : List Char) : Option (List Char × List Char) :=
  match cs.reverse.dropWhile (· ≠ mark) with
  | [] => none
  | _ :: front => some (front.reverse, (cs.reverse.takeWhile (· ≠ mark)).reverse)

/-- The marks at which the user, the host and the port end. -/
def authorityEnds : List Char := ['/', '?', '#']

/-- The marks at which the database ends. -/
def pathEnds : List Char := ['?', '#']

/-- The database behind the first slash, as it is written. -/
def path? : List Char → Option (List Char)
  | '/' :: cs => some (cs.takeWhile (· ∉ pathEnds))
  | _ => none

/-- What stands behind the first `mark`, if there is one. -/
def behind? (mark : Char) (cs : List Char) : Option (List Char) := (cs.dropWhile (· ≠ mark)).tail?

/-- The parts of an address, if it names a user, a port and a database. -/
def read? (text : String) : Option Address := do
  let plain ← Text.after? "postgresql://" text
  let (user, server) ← cutLast? '@' (plain.toList.takeWhile (· ∉ authorityEnds))
  let (host, port) ← cutLast? ':' server
  let path ← path? (plain.toList.dropWhile (· ∉ authorityEnds))
  some ⟨← decoded? (user.takeWhile (· ≠ ':')), ← (behind? ':' user).mapM decoded?, ← decoded? host,
    ← Decimal.natural? port, ← decoded? path⟩

section

variable {mark : Char} {cs xs ys : List Char}

/-- What is cut off at the last mark stands in front of it, and there is none behind it. -/
theorem cutLast?_eq_some_iff :
    cutLast? mark cs = some (xs, ys) ↔ cs = xs ++ mark :: ys ∧ mark ∉ ys := by
  constructor
  · intro h
    unfold cutLast? at h
    split at h
    next => cases h
    next d front hdrop =>
      obtain rfl := eq_mark_of_dropWhile hdrop
      obtain ⟨rfl, rfl⟩ := Prod.mk.inj (Option.some.inj h)
      have hreverse := congrArg List.reverse (cut_iff.mp ⟨rfl, hdrop⟩).1
      rw [List.reverse_reverse] at hreverse
      refine ⟨?_, fun hmem => not_mem_takeWhile_ne d cs.reverse (List.mem_reverse.mp hmem)⟩
      simpa only [List.reverse_append, List.reverse_cons, List.append_assoc,
        List.singleton_append] using hreverse
  · rintro ⟨rfl, hys⟩
    have hreverse : (xs ++ mark :: ys).reverse = ys.reverse ++ mark :: xs.reverse := by
      simp only [List.reverse_append, List.reverse_cons, List.append_assoc, List.singleton_append]
    have hkept : mark ∉ ys.reverse := fun hmem => hys (List.mem_reverse.mp hmem)
    obtain ⟨htake, hdrop⟩ := cut_at_mark hkept xs.reverse
    rw [cutLast?, hreverse, htake, hdrop]
    simp only [List.reverse_reverse]

/-- What may stand behind a mark, with the mark. -/
def marked (mark : Char) : Option (List Char) → List Char
  | none => []
  | some cs => mark :: cs

/-- What is cut off at the first mark stands behind it, and there is none in front of it. -/
theorem behind?_eq_iff {rest : Option (List Char)} :
    (cs.takeWhile (· ≠ mark) = xs ∧ behind? mark cs = rest) ↔
      cs = xs ++ marked mark rest ∧ mark ∉ xs := by
  constructor
  · rintro ⟨rfl, rfl⟩
    refine ⟨?_, not_mem_takeWhile_ne mark cs⟩
    unfold behind?
    cases hdrop : cs.dropWhile (· ≠ mark) with
    | nil => exact (cut_iff.mp ⟨rfl, hdrop⟩).1
    | cons d ys =>
      obtain rfl := eq_mark_of_dropWhile hdrop
      exact (cut_iff.mp ⟨rfl, hdrop⟩).1
  · rintro ⟨rfl, hxs⟩
    cases rest with
    | none =>
      obtain ⟨htake, hdrop⟩ := cut_without_mark hxs
      rw [marked, List.append_nil, behind?, htake, hdrop]
      exact ⟨rfl, rfl⟩
    | some ys =>
      obtain ⟨htake, hdrop⟩ := cut_at_mark hxs ys
      rw [marked, behind?, htake, hdrop]
      exact ⟨rfl, rfl⟩

end

/-- The database is found behind the slash, up to the first mark that ends it. -/
theorem path?_eq_some_iff {cs path : List Char} : path? cs = some path ↔
    ∃ rest, cs = '/' :: (path ++ rest) ∧ (∀ c ∈ path, c ∉ pathEnds) ∧
      ∀ c more, rest = c :: more → c ∈ pathEnds := by
  constructor
  · intro h
    unfold path? at h
    split at h
    next cs =>
      obtain rfl := Option.some.inj h
      obtain ⟨hcs, hkept, hend⟩ := eq_kept_append_left (· ∉ pathEnds) cs
      refine ⟨_, congrArg ('/' :: ·) hcs, fun c hc => of_decide_eq_true (hkept c hc), ?_⟩
      intro c more hcons
      exact Decidable.not_not.mp (of_decide_eq_false (hend c more hcons))
    next => cases h
  · rintro ⟨rest, rfl, hpath, hrest⟩
    have hkept : ∀ c ∈ path, decide (c ∉ pathEnds) = true := fun c hc => decide_eq_true (hpath c hc)
    have hend : ∀ c more, rest = c :: more → decide (c ∉ pathEnds) = false := fun c more hcons =>
      decide_eq_false (not_not_intro (hrest c more hcons))
    rw [path?, (cut_iff.mpr ⟨rfl, hkept, hend⟩).1]

/-- An address as it is written: its parts, each in front of the mark that ends it. -/
structure Written (text : String) (name : List Char) (secret : Option (List Char))
    (host port path : List Char) : Prop where
  /-- The parts stand one behind the other, and what is left begins with a mark. -/
  text_eq : ∃ rest, text.toList = "postgresql://".toList ++ (name ++ (marked ':' secret
    ++ '@' :: (host ++ ':' :: (port ++ '/' :: (path ++ rest))))) ∧
      ∀ c more, rest = c :: more → c ∈ pathEnds
  /-- No colon ends the user. -/
  name_plain : ':' ∉ name
  /-- No at sign begins the host. -/
  server_plain : '@' ∉ host ++ ':' :: port
  /-- No colon ends the host. -/
  port_plain : ':' ∉ port
  /-- No mark ends the user, the password, the host or the port. -/
  authority_plain : ∀ c ∈ name ++ marked ':' secret ++ '@' :: (host ++ ':' :: port),
    c ∉ authorityEnds
  /-- No mark ends the database. -/
  path_plain : ∀ c ∈ path, c ∉ pathEnds

/-- An address is read as what its parts stand for. -/
theorem read?_eq_some_iff {text : String} {a : Address} : read? text = some a ↔
    ∃ name secret host port path, Written text name secret host port path ∧
      decoded? name = some a.username ∧ secret.mapM decoded? = some a.password ∧
      decoded? host = some a.host ∧ Decimal.natural? port = some a.portNumber ∧
      decoded? path = some a.database := by
  unfold read?
  simp only [Option.bind_eq_bind, Option.bind_eq_some_iff, Text.after?_eq_some_iff]
  constructor
  · rintro ⟨plain, rfl, ⟨user, server⟩, huser, ⟨host, port⟩, hserver, path, hpath, username, hname,
      password, hsecret, hostText, hhost, portNumber, hport, database, hdatabase, hall⟩
    obtain rfl := Option.some.inj hall
    obtain ⟨hplain, hkept, -⟩ := eq_kept_append_left (· ∉ authorityEnds) plain.toList
    obtain ⟨hauthority, hat⟩ := cutLast?_eq_some_iff.mp huser
    obtain ⟨rfl, hcolon⟩ := cutLast?_eq_some_iff.mp hserver
    obtain ⟨rest, hrest, hpathPlain, hend⟩ := path?_eq_some_iff.mp hpath
    have hbehind : user = user.takeWhile (· ≠ ':') ++ marked ':' (behind? ':' user) ∧
        ':' ∉ user.takeWhile (· ≠ ':') := behind?_eq_iff.mp ⟨rfl, rfl⟩
    rw [hauthority] at hplain hkept
    refine ⟨_, behind? ':' user, host, port, path, ⟨⟨rest, ?_, hend⟩, hbehind.2, hat, hcolon, ?_,
      hpathPlain⟩, hname, hsecret, hhost, hport, hdatabase⟩
    · rw [String.toList_append, hplain, hrest]
      conv_lhs => rw [hbehind.1]
      simp only [List.append_assoc, List.cons_append]
    · rw [← hbehind.1]
      exact fun c hc => of_decide_eq_true (hkept c hc)
  · rintro ⟨name, secret, host, port, path, hwritten, hname, hsecret, hhost, hport, hdatabase⟩
    obtain ⟨rest, htext, hend⟩ := hwritten.text_eq
    have hkept : ∀ c ∈ name ++ marked ':' secret ++ '@' :: (host ++ ':' :: port),
        decide (c ∉ authorityEnds) = true := fun c hc =>
      decide_eq_true (hwritten.authority_plain c hc)
    have hslash : decide ('/' ∉ authorityEnds) = false := by decide
    obtain ⟨htake, hdrop⟩ := cut_append_cons hkept hslash (path ++ rest)
    obtain ⟨hfirst, hbehind⟩ := behind?_eq_iff.mpr ⟨rfl, hwritten.name_plain⟩
    refine ⟨String.ofList (name ++ marked ':' secret ++ '@' :: (host ++ ':' :: port)
      ++ '/' :: (path ++ rest)), ?_, (name ++ marked ':' secret, host ++ ':' :: port), ?_,
      (host, port), cutLast?_eq_some_iff.mpr ⟨rfl, hwritten.port_plain⟩, path, ?_, a.username, ?_,
      a.password, ?_, a.host, hhost, a.portNumber, hport, a.database, hdatabase, rfl⟩
    · rw [← String.toList_inj, htext, String.toList_append]
      refine congrArg ("postgresql://".toList ++ ·) ?_
      rw [String.toList_ofList]
      simp only [List.append_assoc, List.cons_append]
    · rw [String.toList_ofList, htake]
      exact cutLast?_eq_some_iff.mpr ⟨rfl, hwritten.server_plain⟩
    · rw [String.toList_ofList, hdrop]
      exact path?_eq_some_iff.mpr ⟨rest, rfl, hwritten.path_plain, hend⟩
    · rwa [hfirst]
    · rwa [hbehind]

/-- An address whose parts stand for themselves where they are written. -/
structure Plain (a : Address) : Prop where
  /-- The user has no mark that ends it. -/
  username : ∀ c ∈ a.username.toList, c ∉ [':', '/', '?', '#']
  /-- The password has no mark that ends it. -/
  password : ∀ s ∈ a.password, ∀ c ∈ s.toList, c ∉ ['/', '?', '#']
  /-- The host has no mark that ends it or begins it anew. -/
  host : ∀ c ∈ a.host.toList, c ∉ ['@', '/', '?', '#']
  /-- The database has no mark that ends it. -/
  database : ∀ c ∈ a.database.toList, c ∉ ['?', '#']
  /-- No part has an escape. -/
  literal : IsLiteral a.username.toList ∧ (∀ s ∈ a.password, IsLiteral s.toList) ∧
    IsLiteral a.host.toList ∧ IsLiteral a.database.toList

/-- The address as it is written, behind its lead. -/
def written (a : Address) : List Char :=
  a.username.toList ++ (marked ':' (a.password.map String.toList)
    ++ '@' :: (a.host.toList ++ ':' :: (Decimal.digits a.portNumber ++ '/' :: a.database.toList)))

/-- A character that is no digit is not among the digits of a port. -/
theorem not_mem_digits {c : Char} (h : Decimal.isDigit c = false) (n : Nat) :
    c ∉ Decimal.digits n :=
  Decimal.not_mem_of_isDigit h fun _ => Decimal.isDigit_of_mem_digits

/-- The user, the password, the host and the port of a plain address have no mark that ends them. -/
theorem Plain.authority {a : Address} (h : a.Plain) :
    ∀ c ∈ a.username.toList ++ marked ':' (a.password.map String.toList)
      ++ '@' :: (a.host.toList ++ ':' :: Decimal.digits a.portNumber), c ∉ authorityEnds := by
  intro c hc hends
  rcases List.mem_append.mp hc with hc | hc
  · rcases List.mem_append.mp hc with hc | hc
    · exact h.username c hc (List.mem_cons_of_mem _ hends)
    · cases hp : a.password with
      | none =>
        rw [hp] at hc
        cases hc
      | some s =>
        rw [hp] at hc
        rcases List.mem_cons.mp hc with rfl | hc
        · revert hends
          decide
        · exact h.password s hp c hc hends
  · rcases List.mem_cons.mp hc with rfl | hc
    · revert hends
      decide
    · rcases List.mem_append.mp hc with hc | hc
      · exact h.host c hc (List.mem_cons_of_mem _ hends)
      · rcases List.mem_cons.mp hc with rfl | hc
        · revert hends
          decide
        · refine not_mem_digits ?_ a.portNumber hc
          simp only [authorityEnds, List.mem_cons, List.not_mem_nil, or_false] at hends
          rcases hends with rfl | rfl | rfl <;> rfl

/-- A plain address is written with its parts in front of the marks that end them. -/
theorem Plain.isWritten {a : Address} (h : a.Plain) {text : String}
    (htext : text.toList = "postgresql://".toList ++ a.written) :
    Written text a.username.toList (a.password.map String.toList) a.host.toList
      (Decimal.digits a.portNumber) a.database.toList where
  text_eq := ⟨[], by rw [List.append_nil]; exact htext, fun _ _ hcons => (nomatch hcons)⟩
  name_plain hmem := h.username ':' hmem List.mem_cons_self
  server_plain hmem := by
    rcases List.mem_append.mp hmem with hmem | hmem
    · exact h.host '@' hmem List.mem_cons_self
    · rcases List.mem_cons.mp hmem with he | hmem
      · exact absurd he (by decide)
      · exact not_mem_digits rfl a.portNumber hmem
  port_plain := not_mem_digits rfl a.portNumber
  authority_plain := h.authority
  path_plain := h.database

/-- A plain address is read back. -/
theorem Plain.read?_eq {a : Address} (h : a.Plain) {text : String}
    (htext : text.toList = "postgresql://".toList ++ a.written) : read? text = some a := by
  obtain ⟨huser, hsecret, hhost, hdatabase⟩ := h.literal
  refine read?_eq_some_iff.mpr ⟨_, _, _, _, _, h.isWritten htext, huser.decoded?_eq, ?_,
    hhost.decoded?_eq, Decimal.natural?_digits _, hdatabase.decoded?_eq⟩
  cases hp : a.password with
  | none => rfl
  | some s =>
    have hs := (hsecret s hp).decoded?_eq
    rw [Option.map_some, Option.mapM_some, hs]
    rfl

/-- The digits of a port are no longer than digits that it is read from. -/
theorem length_digits_le {port : List Char} {n : Nat} (h : Decimal.natural? port = some n) :
    (bytes (Decimal.digits n)).length ≤ (bytes port).length := by
  have hbytes : ∀ {cs : List Char}, (∀ c ∈ cs, Decimal.isDigit c = true) →
      (bytes cs).length = cs.length := by
    intro cs hcs
    induction cs with
    | nil => rfl
    | cons c cs ih =>
      have hc := (Decimal.isDigit_iff c).mp (hcs c List.mem_cons_self)
      have hone : c.utf8Size = 1 :=
        Char.utf8Size_eq_one_iff.mpr (UInt32.le_trans hc.2 (by decide))
      rw [bytes_cons, List.length_append, String.length_utf8EncodeChar, hone,
        ih fun d hd => hcs d (List.mem_cons_of_mem _ hd), List.length_cons, Nat.add_comm]
  obtain ⟨⟨hne, hdigits⟩, rfl⟩ := Decimal.natural?_eq_some_iff.mp h
  have hport : ∀ c ∈ port, Decimal.isDigit c = true := fun c hc =>
    (Decimal.isDigit_iff c).mpr (hdigits c hc)
  rw [hbytes fun c => Decimal.isDigit_of_mem_digits, hbytes hport]
  exact Decimal.length_digits_ofDigits hne hport

/-- A password is not longer than it is written, and one as long as it is written has no escapes. -/
theorem length_secret {secret : Option (List Char)} {password : Option String}
    (h : secret.mapM decoded? = some password) :
    (bytes (marked ':' (password.map String.toList))).length ≤ (bytes (marked ':' secret)).length ∧
      ((bytes (marked ':' (password.map String.toList))).length = (bytes (marked ':' secret)).length →
        secret = password.map String.toList ∧ ∀ s ∈ password, IsLiteral s.toList) := by
  cases secret with
  | none =>
    rw [Option.mapM_none] at h
    obtain rfl := Option.some.inj h
    exact ⟨Nat.le_refl _, fun _ => ⟨rfl, fun _ hs => (nomatch hs)⟩⟩
  | some cs =>
    rw [Option.mapM_some] at h
    obtain ⟨s, hs, rfl⟩ := Option.map_eq_some_iff.mp h
    have hle := Text.length_le_of_decoded? hs
    simp only [Option.map_some, marked, bytes_cons, List.length_append]
    refine ⟨by omega, fun he => ?_⟩
    obtain ⟨rfl, hliteral⟩ := Text.eq_of_decoded?_of_length hs (by omega)
    refine ⟨rfl, ?_⟩
    rintro t ⟨⟩
    exact hliteral

/-- An address that is read back is plain. -/
theorem plain_of_read? {a : Address} {text : String}
    (htext : text.toList = "postgresql://".toList ++ a.written) (h : read? text = some a) :
    a.Plain := by
  obtain ⟨name, secret, host, port, path, hwritten, hname, hsecret, hhost, hport, hdatabase⟩ :=
    read?_eq_some_iff.mp h
  obtain ⟨rest, htext', hend⟩ := hwritten.text_eq
  rw [htext] at htext'
  have hlength := congrArg (fun cs => (bytes cs).length) (List.append_cancel_left htext')
  simp only [written, bytes_append, bytes_cons, List.length_append] at hlength
  -- what is read is never longer than it is written, so here nothing is shorter
  have hname_le := Text.length_le_of_decoded? hname
  have hsecret_le := (length_secret hsecret).1
  have hhost_le := Text.length_le_of_decoded? hhost
  have hport_le := length_digits_le hport
  have hdatabase_le := Text.length_le_of_decoded? hdatabase
  obtain ⟨rfl, hname_literal⟩ := Text.eq_of_decoded?_of_length hname (by omega)
  obtain ⟨rfl, hsecret_literal⟩ := (length_secret hsecret).2 (by omega)
  obtain ⟨rfl, hhost_literal⟩ := Text.eq_of_decoded?_of_length hhost (by omega)
  obtain ⟨rfl, hdatabase_literal⟩ := Text.eq_of_decoded?_of_length hdatabase (by omega)
  have hauthority := hwritten.authority_plain
  refine ⟨?_, ?_, ?_, hwritten.path_plain, hname_literal, hsecret_literal, hhost_literal,
    hdatabase_literal⟩
  · intro c hc hmark
    rcases List.mem_cons.mp hmark with rfl | hmark
    · exact hwritten.name_plain hc
    · exact hauthority c (List.mem_append_left _ (List.mem_append_left _ hc)) hmark
  · intro s hs c hc
    refine hauthority c (List.mem_append_left _ (List.mem_append_right _ ?_))
    rw [Option.mem_def.mp hs]
    exact List.mem_cons_of_mem _ hc
  · intro c hc hmark
    rcases List.mem_cons.mp hmark with rfl | hmark
    · exact hwritten.server_plain (List.mem_append_left _ hc)
    · exact hauthority c (List.mem_append_right _ (List.mem_cons_of_mem _
        (List.mem_append_left _ hc))) hmark

end Address

namespace ServerConfig

variable {c : ServerConfig} {env : Environment}

/-- The parts that an address is built from. -/
def address (c : ServerConfig) (env : Environment) : Address :=
  ⟨c.username, c.resolvedPassword env, c.host, c.portNumber, c.database⟩

/-- No address is given whole, neither by the environment nor by the configuration. -/
def Composes (c : ServerConfig) (env : Environment) : Prop :=
  c.databaseUrlEnv.bind env = none ∧ c.databaseUrl = none

/-- Without an address given whole, the parts are written one behind the other. -/
theorem toList_connectionString (h : c.Composes env) :
    (c.connectionString env).toList = "postgresql://".toList ++ (c.address env).written := by
  rw [connectionString, h.1, h.2]
  dsimp only
  unfold composed Address.written address
  cases c.resolvedPassword env with
  | none => simp [Address.marked]
  | some s => simp [Address.marked]

/-- The parts of an address are read back exactly if it is plain, and plain addresses with other parts
are written differently. -/
theorem read?_connectionString_iff (h : c.Composes env) :
    (Address.read? (c.connectionString env) = some (c.address env) ↔ (c.address env).Plain) ∧
      ∀ (d : ServerConfig) (other : Environment), d.Composes other →
        (c.address env).Plain → (d.address other).Plain →
        c.connectionString env = d.connectionString other → c.address env = d.address other := by
  have htext := toList_connectionString h
  refine ⟨⟨Address.plain_of_read? htext, fun hplain => hplain.read?_eq htext⟩, ?_⟩
  intro d other hd hplain hplain' hsame
  have hread := hplain.read?_eq htext
  rw [hsame, hplain'.read?_eq (toList_connectionString hd)] at hread
  exact (Option.some.inj hread).symm

/-- A user with a password that has a slash. -/
def slashed : ServerConfig := { username := "app", password := some "s3cret/1" }

/-- A user with a password. -/
def withSecret : ServerConfig := { username := "a", password := some "b" }

/-- A user with a colon and without a password. -/
def withColon : ServerConfig := { username := "a:b" }

/-- A slash ends the address of the server inside the password, and a colon in the user makes two
configurations with the same address. -/
theorem not_read?_slashed : slashed.Composes (fun _ => none) ∧
    Address.read? (slashed.connectionString fun _ => none) ≠ some (slashed.address fun _ => none) ∧
    withSecret.connectionString (fun _ => none) = withColon.connectionString (fun _ => none) ∧
    withSecret.address (fun _ => none) ≠ withColon.address (fun _ => none) := by
  have hcomposes : slashed.Composes (fun _ => none) := ⟨rfl, rfl⟩
  refine ⟨hcomposes, fun hread => ?_, by decide, by decide⟩
  have hplain := (read?_connectionString_iff hcomposes).1.mp hread
  exact hplain.password "s3cret/1" rfl '/' (by decide) (by decide)

end ServerConfig

end TableGraph
