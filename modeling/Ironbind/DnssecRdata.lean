import Ironbind.PacketRoundTrip
import Ironbind.Dnssec

/- The data of RRSIG, DNSKEY and DS records: what is built from their fields is
   parsed back to these fields, with the signer's name in the parser's spelling
   (its labels in lower case, joined by dots). The last field of each of the
   three is the rest of the data. -/
namespace Ironbind
open Codec

/-- Octets read to the end of the buffer. -/
theorem rest_run {β : Type} (f : Bytes → Parser β) (pre d : Bytes) :
    (Parser.remaining >>= fun n => Parser.bytes n >>= f) (pre ++ d) pre.length =
      f d (pre ++ d) (pre ++ d).length := by
  have hlen : (pre ++ d).length - pre.length = d.length := by simp
  have hrun : Parser.remaining (pre ++ d) pre.length = (.ok d.length, pre.length) := by
    rw [Parser.remaining, hlen]
  have hbytes := (bytes_decodes d).step f pre []
  rw [List.append_nil, List.append_nil] at hbytes
  rw [Reader.bind_ok hrun, hbytes]

theorem parseDnskey_eq (flags : UInt16) (protocol algorithm : UInt8) (publicKey : Bytes) :
    parseDnskey (be16 flags ++ ([protocol] ++ ([algorithm] ++ publicKey))) =
      .ok ⟨flags, protocol, algorithm, publicKey⟩ := by
  have hstart : ∀ b : Bytes, Parser.dnskey b 0 = Parser.dnskey ([] ++ b) ([] : Bytes).length := fun _ => rfl
  rw [parseDnskey, Reader.run, hstart, Parser.dnskey, (u16_decodes flags).step, (u8_decodes protocol).step,
    (u8_decodes algorithm).step, rest_run, Reader.pure_run]

/-- The fields in front of a signature, and the signature, are parsed back. -/
theorem parseRrsig_eq (r : Rrsig) (signature : Bytes) (hw : ∀ l ∈ labelsOf r.signerName, WireLabel l) :
    parseRrsig (rrsigFields r ++ signature) =
      .ok { r with signerName := readName r.signerName, signature := signature } := by
  have hname := builder_name_decodes hw
  have hstart : ∀ b : Bytes, Parser.rrsig b 0 = Parser.rrsig ([] ++ b) ([] : Bytes).length := fun _ => rfl
  simp only [rrsigFields, Builder.u16, Builder.u8, Builder.u32, List.append_assoc]
  rw [parseRrsig, Reader.run, hstart, Parser.rrsig, (u16_decodes r.typeCovered).step, (u8_decodes r.algorithm).step,
    (u8_decodes r.labels).step, (u32_decodes r.origTtl).step, (u32_decodes r.sigExpiry).step,
    (u32_decodes r.sigInception).step, (u16_decodes r.keyTag).step, hname.step, rest_run, Reader.pure_run]

/-- The signed data leaves the signature field out. -/
theorem buildSignedData_signature (r : Rrsig) (signature : Bytes) (rrset : List Record) :
    buildSignedData { r with signature := signature } rrset = buildSignedData r rrset := rfl

end Ironbind
