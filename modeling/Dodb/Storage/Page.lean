import Dodb.Core.Transaction

/-! The fixed-size page: a 32-byte header with a CRC32C over the whole page, and a
body.

The checksum itself comes from outside the repository; it is the parameter
`Crc32c` of everything that reads or writes pages. -/
namespace Dodb
open Lib

/-- The checksum of pages, superblocks and frames. -/
class Crc32c where
  crc32c : Bytes → UInt32

/-- The shift register of CRC-32C, fed bit by bit. -/
def crcRegister : Nat → List Nat → Nat
  | register, [] => register
  | register, bit :: rest =>
    if register % 2 = bit then crcRegister (register / 2) rest
    else crcRegister (register / 2 ^^^ 0x82F63B78) rest

/-- The bits of a byte, the low bit first. -/
def byteBits (byte : UInt8) : List Nat := (List.range 8).map fun i => byte.toNat / 2 ^ i % 2

/-- The checksum the store is built with, for runs on fixed inputs. -/
@[reducible] def castagnoli : Crc32c :=
  ⟨fun bytes => UInt32.ofNat (crcRegister 0xFFFFFFFF (bytes.flatMap byteBits) ^^^ 0xFFFFFFFF)⟩

-- the check value of the algorithm's catalogue entry, over the digits 1 to 9
example : castagnoli.crc32c [49, 50, 51, 52, 53, 54, 55, 56, 57] = 0xE3069283 := by decide +kernel

def pageSize : Nat := 4096
def pageHeaderSize : Nat := 32
def pageFormatVersion : Nat := 1
def pageMagic : Bytes := [0x44, 0x42, 0x50, 0x47]
def pageChecksumOffset : Nat := 28

@[simp] theorem length_pageMagic : pageMagic.length = 4 := by decide

/-- What the body of a page is. -/
inductive PageType where
  | internal
  | leaf
  | overflow
  | free
  | test
  deriving DecidableEq, Repr

namespace PageType

def toByte : PageType → UInt8
  | internal => 1
  | leaf => 2
  | overflow => 3
  | free => 4
  | test => 255

def decode (value : UInt8) : Result PageType :=
  if value = 1 then .ok internal
  else if value = 2 then .ok leaf
  else if value = 3 then .ok overflow
  else if value = 4 then .ok free
  else if value = 255 then .ok test
  else .error (.unsupportedFormat s!"unknown page type {value.toNat}")

@[simp] theorem decode_toByte (t : PageType) : decode t.toByte = .ok t := by
  cases t <;> rfl

end PageType

/-- What a page says of itself. -/
structure PageHeader where
  formatVersion : Nat
  pageType : PageType
  pageId : PageId
  pageLsn : Lsn
  flags : Nat
  checksum : Nat
  deriving DecidableEq, Repr

def PageHeader.new (pageType : PageType) (pageId : PageId) (pageLsn : Lsn) : PageHeader :=
  ⟨pageFormatVersion, pageType, pageId, pageLsn, 0, 0⟩

/-- A page whose header and checksum are right. -/
structure DecodedPage where
  header : PageHeader
  body : Bytes
  deriving DecidableEq, Repr

/-- A page with a given checksum. -/
def pageLayout (header : PageHeader) (checksum : Nat) (body : Bytes) : Bytes :=
  pageMagic ++ (le 2 header.formatVersion ++ ([header.pageType.toByte, 0] ++ (le 8 header.pageId ++
    (le 8 header.pageLsn ++ (le 4 header.flags ++ (le 4 checksum ++
      (body ++ zeros (pageSize - pageHeaderSize - body.length))))))))

theorem length_pageLayout (header : PageHeader) (checksum : Nat) {body : Bytes}
    (h : body.length ≤ pageSize - pageHeaderSize) :
    (pageLayout header checksum body).length = pageSize := by
  simp only [pageLayout, List.length_append, length_le, length_zeros, pageMagic, List.length_cons,
    List.length_nil, pageSize, pageHeaderSize] at *
  omega

theorem splice_pageLayout (header : PageHeader) (checksum : Nat) (body : Bytes) {x : Bytes}
    (hx : x.length = 4) : splice (pageLayout header checksum body) pageChecksumOffset x =
      pageMagic ++ (le 2 header.formatVersion ++ ([header.pageType.toByte, 0] ++ (le 8 header.pageId ++
        (le 8 header.pageLsn ++ (le 4 header.flags ++ (x ++
          (body ++ zeros (pageSize - pageHeaderSize - body.length)))))))) := by
  unfold pageLayout
  have := splice_field (pageMagic ++ (le 2 header.formatVersion ++ ([header.pageType.toByte, 0] ++
    (le 8 header.pageId ++ (le 8 header.pageLsn ++ le 4 header.flags))))) (le 4 checksum) x
    (body ++ zeros (pageSize - pageHeaderSize - body.length)) pageChecksumOffset
    (by simp [pageMagic, pageChecksumOffset]) (by simp [hx])
  simpa only [List.append_assoc] using this

variable [Crc32c]

/-- The checksum of a page, its own field counted as zero. -/
def pageChecksum (page : Bytes) : Nat :=
  (Crc32c.crc32c (splice page pageChecksumOffset (zeros 4))).toNat

/-- The page with its checksum in place. -/
def encodePage (header : PageHeader) (body : Bytes) : Result Bytes :=
  if header.formatVersion ≠ pageFormatVersion then
    .error (.unsupportedFormat s!"cannot encode page version {header.formatVersion}")
  else if body.length > pageSize - pageHeaderSize then
    .error (.invalidInput
      s!"page body is {body.length} bytes, maximum is {pageSize - pageHeaderSize}")
  else
    let page := pageLayout header 0 body
    .ok (splice page pageChecksumOffset (le 4 (pageChecksum page)))

/-- Refuses a page of another kind, place or version, and one whose checksum is wrong. -/
def decodePageAt (bytes : Bytes) (expectedPageId : Option PageId) : Result DecodedPage := do
  ensure (bytes.length = pageSize)
    (.corruption s!"page has {bytes.length} bytes, expected {pageSize}")
  ensure (slice bytes 0 4 = pageMagic) (.corruption "page magic mismatch")
  let formatVersion := ofLe (slice bytes 4 2)
  ensure (formatVersion = pageFormatVersion)
    (.unsupportedFormat s!"page version {formatVersion}, supported {pageFormatVersion}")
  ensure (bytes.getD 7 0 = 0) (.corruption "page reserved byte is non-zero")
  let pageType ← PageType.decode (bytes.getD 6 0)
  let pageId := ofLe (slice bytes 8 8)
  ensure (expectedPageId.all fun expected => decide (pageId = expected))
    (.corruption s!"page id mismatch: encoded {pageId}, expected {expectedPageId.getD 0}")
  let storedChecksum := ofLe (slice bytes pageChecksumOffset 4)
  let calculatedChecksum := pageChecksum bytes
  ensure (storedChecksum = calculatedChecksum) (.corruption
    s!"page checksum mismatch: stored {hex 8 storedChecksum}, calculated {hex 8 calculatedChecksum}")
  pure ⟨⟨formatVersion, pageType, pageId, ofLe (slice bytes 16 8), ofLe (slice bytes 24 4),
    storedChecksum⟩, bytes.drop pageHeaderSize⟩

/-- The header of a page says its LSN at bytes 16 to 23. -/
theorem decodePageAt_lsn {bytes : Bytes} {expected : Option PageId} {decoded : DecodedPage}
    (h : decodePageAt bytes expected = .ok decoded) : decoded.header.pageLsn = ofLe (slice bytes 16 8) := by
  simp only [decodePageAt, except_bind_eq_ok] at h
  obtain ⟨_, _, _, _, _, _, _, _, _, _, _, _, _, _, h⟩ := h
  cases h
  rfl

/-! ### Reading back what was written -/

/-- The checksum does not depend on the checksum stored. -/
theorem pageChecksum_pageLayout (header : PageHeader) (checksum : Nat) (body : Bytes) :
    pageChecksum (pageLayout header checksum body) = pageChecksum (pageLayout header 0 body) := by
  unfold pageChecksum
  rw [splice_pageLayout _ _ _ (by simp), splice_pageLayout _ _ _ (by simp)]

theorem pageChecksum_lt (page : Bytes) : pageChecksum page < 256 ^ 4 :=
  UInt32.toNat_lt _

/-- What `encodePage` writes. -/
theorem encodePage_eq_ok {header : PageHeader} {body page : Bytes} :
    encodePage header body = .ok page ↔
      header.formatVersion = pageFormatVersion ∧ body.length ≤ pageSize - pageHeaderSize ∧
        page = pageLayout header (pageChecksum (pageLayout header 0 body)) body := by
  unfold encodePage
  split
  · simp [*]
  · split
    · simp
      omega
    · simp only [splice_pageLayout _ _ _ (length_le 4 _), Except.ok.injEq]
      constructor
      · exact fun h => ⟨not_not.mp ‹_›, by omega, h.symm⟩
      · exact fun h => h.2.2.symm

/-- What an encoded page decodes to: its header with the checksum filled in, and its
body padded with zeros. -/
theorem decodePageAt_encodePage {header : PageHeader} {body page : Bytes} (h : encodePage header body = .ok page)
    (hid : header.pageId < 256 ^ 8) (hlsn : header.pageLsn < 256 ^ 8) (hflags : header.flags < 256 ^ 4) :
    decodePageAt page (some header.pageId) =
      .ok ⟨{header with checksum := pageChecksum page},
        body ++ zeros (pageSize - pageHeaderSize - body.length)⟩ := by
  obtain ⟨hversion, hbody, rfl⟩ := encodePage_eq_ok.mp h
  have hlen := length_pageLayout header (pageChecksum (pageLayout header 0 body)) hbody
  have hcrc := pageChecksum_lt (pageLayout header 0 body)
  have hsame := pageChecksum_pageLayout header (pageChecksum (pageLayout header 0 body)) body
  rw [decodePageAt]
  generalize pageChecksum (pageLayout header 0 body) = checksum at *
  have hfields : Fields (pageLayout header checksum body) 0 [pageMagic, le 2 header.formatVersion,
      [header.pageType.toByte, 0], le 8 header.pageId, le 8 header.pageLsn, le 4 header.flags, le 4 checksum] :=
    .of_eq rfl
  simp only [Fields, Nat.reduceAdd, length_pageMagic, length_le, List.length_cons, List.length_nil] at hfields
  obtain ⟨hmagic, hversion', -, hid', hlsn', hflags', hcrc', -⟩ := hfields
  simp only [except_bind_eq_ok, ensure_eq_ok, pageChecksumOffset, hmagic, hversion', hid', hlsn', hflags', hcrc',
    hsame, ofLe_le _ _ (show header.formatVersion < 256 ^ 2 by rw [hversion]; decide), ofLe_le _ _ hid,
    ofLe_le _ _ hlsn, ofLe_le _ _ hflags, ofLe_le _ _ hcrc]
  refine ⟨(), hlen, (), trivial, (), hversion, (), ?_, header.pageType, ?_, (), by simp, (), trivial, ?_⟩
  · simp (disch := simp) only [pageLayout, List.getD_append_right, List.getD_append, length_pageMagic,
      length_le]
    rfl
  · simp (disch := simp) only [pageLayout, List.getD_append_right, List.getD_append, length_pageMagic,
      length_le]
    exact PageType.decode_toByte _
  · have hdrop : (pageLayout header checksum body).drop pageHeaderSize =
        body ++ zeros (pageSize - pageHeaderSize - body.length) := by
      simp only [pageLayout, ← List.append_assoc]
      rw [List.append_assoc _ body, List.drop_left' (by simp [pageHeaderSize])]
    rw [hdrop]
    rfl

end Dodb
