import KcnTools.Libwc.Renumber
import Mathlib.Data.List.Basic

/-!
The tables of GB 18030: `map/gb18030_ucs.map`. A row says where the codes from `code` to `code2` go:
`code3` is the first one there.
-/

namespace KcnTools.Libwc

structure Map3 where
  code : Nat
  code2 : Nat
  code3 : Nat
  deriving DecidableEq

def gbkExtUcsMap : List Map3 := [
  ⟨0xA140, 0xA1A0, 0xE4C6⟩, ⟨0xA240, 0xA2A0, 0xE526⟩, ⟨0xA2AB, 0xA2B0, 0xE766⟩, ⟨0xA2E4, 0xA2E4, 0xE76D⟩,
  ⟨0xA2EF, 0xA2F0, 0xE76E⟩, ⟨0xA2FD, 0xA2FE, 0xE770⟩, ⟨0xA340, 0xA3A0, 0xE586⟩, ⟨0xA440, 0xA4A0, 0xE5E6⟩,
  ⟨0xA4F4, 0xA4FE, 0xE772⟩, ⟨0xA540, 0xA5A0, 0xE646⟩, ⟨0xA5F7, 0xA5FE, 0xE77D⟩, ⟨0xA640, 0xA6A0, 0xE6A6⟩,
  ⟨0xA6B9, 0xA6C0, 0xE785⟩, ⟨0xA6D9, 0xA6DF, 0xE78D⟩, ⟨0xA6EC, 0xA6ED, 0xE794⟩, ⟨0xA6F3, 0xA6F3, 0xE796⟩,
  ⟨0xA6F6, 0xA6FE, 0xE797⟩, ⟨0xA740, 0xA7A0, 0xE706⟩, ⟨0xA7C2, 0xA7D0, 0xE7A0⟩, ⟨0xA7F2, 0xA7FE, 0xE7AF⟩,
  ⟨0xA896, 0xA8A0, 0xE7BC⟩, ⟨0xA8BC, 0xA8BC, 0xE7C7⟩, ⟨0xA8BF, 0xA8BF, 0x01F9⟩, ⟨0xA8C1, 0xA8C4, 0xE7C9⟩,
  ⟨0xA8EA, 0xA8FE, 0xE7CD⟩, ⟨0xA958, 0xA958, 0xE7E2⟩, ⟨0xA95B, 0xA95B, 0xE7E3⟩, ⟨0xA95D, 0xA95F, 0xE7E4⟩,
  ⟨0xA989, 0xA989, 0x303E⟩, ⟨0xA98A, 0xA995, 0x2FF0⟩, ⟨0xA997, 0xA9A3, 0xE7F4⟩, ⟨0xA9F0, 0xA9FE, 0xE801⟩,
  ⟨0xAAA1, 0xAAFE, 0xE000⟩, ⟨0xABA1, 0xABFE, 0xE05E⟩, ⟨0xACA1, 0xACFE, 0xE0BC⟩, ⟨0xADA1, 0xADFE, 0xE11A⟩,
  ⟨0xAEA1, 0xAEFE, 0xE178⟩, ⟨0xAFA1, 0xAFFE, 0xE1D6⟩, ⟨0xD7FA, 0xD7FE, 0xE810⟩, ⟨0xF8A1, 0xF8FE, 0xE234⟩,
  ⟨0xF9A1, 0xF9FE, 0xE292⟩, ⟨0xFAA1, 0xFAFE, 0xE2F0⟩, ⟨0xFBA1, 0xFBFE, 0xE34E⟩, ⟨0xFCA1, 0xFCFE, 0xE3AC⟩,
  ⟨0xFDA1, 0xFDFE, 0xE40A⟩, ⟨0xFE50, 0xFE50, 0x2E81⟩, ⟨0xFE51, 0xFE53, 0xE816⟩, ⟨0xFE54, 0xFE54, 0x2E84⟩,
  ⟨0xFE55, 0xFE55, 0x3473⟩, ⟨0xFE56, 0xFE56, 0x3447⟩, ⟨0xFE57, 0xFE57, 0x2E88⟩, ⟨0xFE58, 0xFE58, 0x2E8B⟩,
  ⟨0xFE59, 0xFE59, 0xE81E⟩, ⟨0xFE5A, 0xFE5A, 0x359E⟩, ⟨0xFE5B, 0xFE5B, 0x361A⟩, ⟨0xFE5C, 0xFE5C, 0x360E⟩,
  ⟨0xFE5D, 0xFE5D, 0x2E8C⟩, ⟨0xFE5E, 0xFE5E, 0x2E97⟩, ⟨0xFE5F, 0xFE5F, 0x396E⟩, ⟨0xFE60, 0xFE60, 0x3918⟩,
  ⟨0xFE61, 0xFE61, 0xE826⟩, ⟨0xFE62, 0xFE62, 0x39CF⟩, ⟨0xFE63, 0xFE63, 0x39DF⟩, ⟨0xFE64, 0xFE64, 0x3A73⟩,
  ⟨0xFE65, 0xFE65, 0x39D0⟩, ⟨0xFE66, 0xFE67, 0xE82B⟩, ⟨0xFE68, 0xFE68, 0x3B4E⟩, ⟨0xFE69, 0xFE69, 0x3C6E⟩,
  ⟨0xFE6A, 0xFE6A, 0x3CE0⟩, ⟨0xFE6B, 0xFE6B, 0x2EA7⟩, ⟨0xFE6C, 0xFE6D, 0xE831⟩, ⟨0xFE6E, 0xFE6E, 0x2EAA⟩,
  ⟨0xFE6F, 0xFE6F, 0x4056⟩, ⟨0xFE70, 0xFE70, 0x415F⟩, ⟨0xFE71, 0xFE71, 0x2EAE⟩, ⟨0xFE72, 0xFE72, 0x4337⟩,
  ⟨0xFE73, 0xFE73, 0x2EB3⟩, ⟨0xFE74, 0xFE75, 0x2EB6⟩, ⟨0xFE76, 0xFE76, 0xE83B⟩, ⟨0xFE77, 0xFE77, 0x43B1⟩,
  ⟨0xFE78, 0xFE78, 0x43AC⟩, ⟨0xFE79, 0xFE79, 0x2EBB⟩, ⟨0xFE7A, 0xFE7A, 0x43DD⟩, ⟨0xFE7B, 0xFE7B, 0x44D6⟩,
  ⟨0xFE7C, 0xFE7C, 0x4661⟩, ⟨0xFE7D, 0xFE7D, 0x464C⟩, ⟨0xFE7E, 0xFE7E, 0xE843⟩, ⟨0xFE80, 0xFE80, 0x4723⟩,
  ⟨0xFE81, 0xFE81, 0x4729⟩, ⟨0xFE82, 0xFE82, 0x477C⟩, ⟨0xFE83, 0xFE83, 0x478D⟩, ⟨0xFE84, 0xFE84, 0x2ECA⟩,
  ⟨0xFE85, 0xFE85, 0x4947⟩, ⟨0xFE86, 0xFE86, 0x497A⟩, ⟨0xFE87, 0xFE87, 0x497D⟩, ⟨0xFE88, 0xFE89, 0x4982⟩,
  ⟨0xFE8A, 0xFE8B, 0x4985⟩, ⟨0xFE8C, 0xFE8C, 0x499F⟩, ⟨0xFE8D, 0xFE8D, 0x499B⟩, ⟨0xFE8E, 0xFE8E, 0x49B7⟩,
  ⟨0xFE8F, 0xFE8F, 0x49B6⟩, ⟨0xFE90, 0xFE91, 0xE854⟩, ⟨0xFE92, 0xFE92, 0x4CA3⟩, ⟨0xFE93, 0xFE95, 0x4C9F⟩,
  ⟨0xFE96, 0xFE96, 0x4C77⟩, ⟨0xFE97, 0xFE97, 0x4CA2⟩, ⟨0xFE98, 0xFE9E, 0x4D13⟩, ⟨0xFE9F, 0xFE9F, 0x4DAE⟩,
  ⟨0xFEA0, 0xFEA0, 0xE864⟩, ⟨0xFEA1, 0xFEFE, 0xE468⟩]

def ucsGbkExtMap : List Map3 := [
  ⟨0x01F9, 0x01F9, 0xA8BF⟩, ⟨0x2E81, 0x2E81, 0xFE50⟩, ⟨0x2E84, 0x2E84, 0xFE54⟩, ⟨0x2E88, 0x2E88, 0xFE57⟩,
  ⟨0x2E8B, 0x2E8B, 0xFE58⟩, ⟨0x2E8C, 0x2E8C, 0xFE5D⟩, ⟨0x2E97, 0x2E97, 0xFE5E⟩, ⟨0x2EA7, 0x2EA7, 0xFE6B⟩,
  ⟨0x2EAA, 0x2EAA, 0xFE6E⟩, ⟨0x2EAE, 0x2EAE, 0xFE71⟩, ⟨0x2EB3, 0x2EB3, 0xFE73⟩, ⟨0x2EB6, 0x2EB7, 0xFE74⟩,
  ⟨0x2EBB, 0x2EBB, 0xFE79⟩, ⟨0x2ECA, 0x2ECA, 0xFE84⟩, ⟨0x2FF0, 0x2FFB, 0xA98A⟩, ⟨0x303E, 0x303E, 0xA989⟩,
  ⟨0x3447, 0x3447, 0xFE56⟩, ⟨0x3473, 0x3473, 0xFE55⟩, ⟨0x359E, 0x359E, 0xFE5A⟩, ⟨0x360E, 0x360E, 0xFE5C⟩,
  ⟨0x361A, 0x361A, 0xFE5B⟩, ⟨0x3918, 0x3918, 0xFE60⟩, ⟨0x396E, 0x396E, 0xFE5F⟩, ⟨0x39CF, 0x39CF, 0xFE62⟩,
  ⟨0x39D0, 0x39D0, 0xFE65⟩, ⟨0x39DF, 0x39DF, 0xFE63⟩, ⟨0x3A73, 0x3A73, 0xFE64⟩, ⟨0x3B4E, 0x3B4E, 0xFE68⟩,
  ⟨0x3C6E, 0x3C6E, 0xFE69⟩, ⟨0x3CE0, 0x3CE0, 0xFE6A⟩, ⟨0x4056, 0x4056, 0xFE6F⟩, ⟨0x415F, 0x415F, 0xFE70⟩,
  ⟨0x4337, 0x4337, 0xFE72⟩, ⟨0x43AC, 0x43AC, 0xFE78⟩, ⟨0x43B1, 0x43B1, 0xFE77⟩, ⟨0x43DD, 0x43DD, 0xFE7A⟩,
  ⟨0x44D6, 0x44D6, 0xFE7B⟩, ⟨0x464C, 0x464C, 0xFE7D⟩, ⟨0x4661, 0x4661, 0xFE7C⟩, ⟨0x4723, 0x4723, 0xFE80⟩,
  ⟨0x4729, 0x4729, 0xFE81⟩, ⟨0x477C, 0x477C, 0xFE82⟩, ⟨0x478D, 0x478D, 0xFE83⟩, ⟨0x4947, 0x4947, 0xFE85⟩,
  ⟨0x497A, 0x497A, 0xFE86⟩, ⟨0x497D, 0x497D, 0xFE87⟩, ⟨0x4982, 0x4983, 0xFE88⟩, ⟨0x4985, 0x4986, 0xFE8A⟩,
  ⟨0x499B, 0x499B, 0xFE8D⟩, ⟨0x499F, 0x499F, 0xFE8C⟩, ⟨0x49B6, 0x49B6, 0xFE8F⟩, ⟨0x49B7, 0x49B7, 0xFE8E⟩,
  ⟨0x4C77, 0x4C77, 0xFE96⟩, ⟨0x4C9F, 0x4CA1, 0xFE93⟩, ⟨0x4CA2, 0x4CA2, 0xFE97⟩, ⟨0x4CA3, 0x4CA3, 0xFE92⟩,
  ⟨0x4D13, 0x4D19, 0xFE98⟩, ⟨0x4DAE, 0x4DAE, 0xFE9F⟩, ⟨0xE000, 0xE05D, 0xAAA1⟩, ⟨0xE05E, 0xE0BB, 0xABA1⟩,
  ⟨0xE0BC, 0xE119, 0xACA1⟩, ⟨0xE11A, 0xE177, 0xADA1⟩, ⟨0xE178, 0xE1D5, 0xAEA1⟩, ⟨0xE1D6, 0xE233, 0xAFA1⟩,
  ⟨0xE234, 0xE291, 0xF8A1⟩, ⟨0xE292, 0xE2EF, 0xF9A1⟩, ⟨0xE2F0, 0xE34D, 0xFAA1⟩, ⟨0xE34E, 0xE3AB, 0xFBA1⟩,
  ⟨0xE3AC, 0xE409, 0xFCA1⟩, ⟨0xE40A, 0xE467, 0xFDA1⟩, ⟨0xE468, 0xE4C5, 0xFEA1⟩, ⟨0xE4C6, 0xE525, 0xA140⟩,
  ⟨0xE526, 0xE585, 0xA240⟩, ⟨0xE586, 0xE5E5, 0xA340⟩, ⟨0xE5E6, 0xE645, 0xA440⟩, ⟨0xE646, 0xE6A5, 0xA540⟩,
  ⟨0xE6A6, 0xE705, 0xA640⟩, ⟨0xE706, 0xE765, 0xA740⟩, ⟨0xE766, 0xE76B, 0xA2AB⟩, ⟨0xE76D, 0xE76D, 0xA2E4⟩,
  ⟨0xE76E, 0xE76F, 0xA2EF⟩, ⟨0xE770, 0xE771, 0xA2FD⟩, ⟨0xE772, 0xE77C, 0xA4F4⟩, ⟨0xE77D, 0xE784, 0xA5F7⟩,
  ⟨0xE785, 0xE78C, 0xA6B9⟩, ⟨0xE78D, 0xE793, 0xA6D9⟩, ⟨0xE794, 0xE795, 0xA6EC⟩, ⟨0xE796, 0xE796, 0xA6F3⟩,
  ⟨0xE797, 0xE79F, 0xA6F6⟩, ⟨0xE7A0, 0xE7AE, 0xA7C2⟩, ⟨0xE7AF, 0xE7BB, 0xA7F2⟩, ⟨0xE7BC, 0xE7C6, 0xA896⟩,
  ⟨0xE7C7, 0xE7C7, 0xA8BC⟩, ⟨0xE7C9, 0xE7CC, 0xA8C1⟩, ⟨0xE7CD, 0xE7E1, 0xA8EA⟩, ⟨0xE7E2, 0xE7E2, 0xA958⟩,
  ⟨0xE7E3, 0xE7E3, 0xA95B⟩, ⟨0xE7E4, 0xE7E6, 0xA95D⟩, ⟨0xE7F4, 0xE800, 0xA997⟩, ⟨0xE801, 0xE80F, 0xA9F0⟩,
  ⟨0xE810, 0xE814, 0xD7FA⟩, ⟨0xE816, 0xE818, 0xFE51⟩, ⟨0xE81E, 0xE81E, 0xFE59⟩, ⟨0xE826, 0xE826, 0xFE61⟩,
  ⟨0xE82B, 0xE82C, 0xFE66⟩, ⟨0xE831, 0xE832, 0xFE6C⟩, ⟨0xE83B, 0xE83B, 0xFE76⟩, ⟨0xE843, 0xE843, 0xFE7E⟩,
  ⟨0xE854, 0xE855, 0xFE90⟩, ⟨0xE864, 0xE864, 0xFEA0⟩]

def ucsGb18030Map : List Map3 := [
  ⟨0x0080, 0x00A3, 0x0000⟩, ⟨0x00A5, 0x00A6, 0x0024⟩, ⟨0x00A9, 0x00AF, 0x0026⟩, ⟨0x00B2, 0x00B6, 0x002D⟩,
  ⟨0x00B8, 0x00D6, 0x0032⟩, ⟨0x00D8, 0x00DF, 0x0051⟩, ⟨0x00E2, 0x00E7, 0x0059⟩, ⟨0x00EB, 0x00EB, 0x005F⟩,
  ⟨0x00EE, 0x00F1, 0x0060⟩, ⟨0x00F4, 0x00F6, 0x0064⟩, ⟨0x00F8, 0x00F8, 0x0067⟩, ⟨0x00FB, 0x00FB, 0x0068⟩,
  ⟨0x00FD, 0x0100, 0x0069⟩, ⟨0x0102, 0x0112, 0x006D⟩, ⟨0x0114, 0x011A, 0x007E⟩, ⟨0x011C, 0x012A, 0x0085⟩,
  ⟨0x012C, 0x0143, 0x0094⟩, ⟨0x0145, 0x0147, 0x00AC⟩, ⟨0x0149, 0x014C, 0x00AF⟩, ⟨0x014E, 0x016A, 0x00B3⟩,
  ⟨0x016C, 0x01CD, 0x00D0⟩, ⟨0x01CF, 0x01CF, 0x0132⟩, ⟨0x01D1, 0x01D1, 0x0133⟩, ⟨0x01D3, 0x01D3, 0x0134⟩,
  ⟨0x01D5, 0x01D5, 0x0135⟩, ⟨0x01D7, 0x01D7, 0x0136⟩, ⟨0x01D9, 0x01D9, 0x0137⟩, ⟨0x01DB, 0x01DB, 0x0138⟩,
  ⟨0x01DD, 0x01F8, 0x0139⟩, ⟨0x01FA, 0x0250, 0x0155⟩, ⟨0x0252, 0x0260, 0x01AC⟩, ⟨0x0262, 0x02C6, 0x01BB⟩,
  ⟨0x02C8, 0x02C8, 0x0220⟩, ⟨0x02CC, 0x02D8, 0x0221⟩, ⟨0x02DA, 0x0390, 0x022E⟩, ⟨0x03A2, 0x03A2, 0x02E5⟩,
  ⟨0x03AA, 0x03B0, 0x02E6⟩, ⟨0x03C2, 0x03C2, 0x02ED⟩, ⟨0x03CA, 0x0400, 0x02EE⟩, ⟨0x0402, 0x040F, 0x0325⟩,
  ⟨0x0450, 0x0450, 0x0333⟩, ⟨0x0452, 0x200F, 0x0334⟩, ⟨0x2011, 0x2012, 0x1EF2⟩, ⟨0x2017, 0x2017, 0x1EF4⟩,
  ⟨0x201A, 0x201B, 0x1EF5⟩, ⟨0x201E, 0x2024, 0x1EF7⟩, ⟨0x2027, 0x202F, 0x1EFE⟩, ⟨0x2031, 0x2031, 0x1F07⟩,
  ⟨0x2034, 0x2034, 0x1F08⟩, ⟨0x2036, 0x203A, 0x1F09⟩, ⟨0x203C, 0x20AB, 0x1F0E⟩, ⟨0x20AD, 0x2102, 0x1F7E⟩,
  ⟨0x2104, 0x2104, 0x1FD4⟩, ⟨0x2106, 0x2108, 0x1FD5⟩, ⟨0x210A, 0x2115, 0x1FD8⟩, ⟨0x2117, 0x2120, 0x1FE4⟩,
  ⟨0x2122, 0x215F, 0x1FEE⟩, ⟨0x216C, 0x216F, 0x202C⟩, ⟨0x217A, 0x218F, 0x2030⟩, ⟨0x2194, 0x2195, 0x2046⟩,
  ⟨0x219A, 0x2207, 0x2048⟩, ⟨0x2209, 0x220E, 0x20B6⟩, ⟨0x2210, 0x2210, 0x20BC⟩, ⟨0x2212, 0x2214, 0x20BD⟩,
  ⟨0x2216, 0x2219, 0x20C0⟩, ⟨0x221B, 0x221C, 0x20C4⟩, ⟨0x2221, 0x2222, 0x20C6⟩, ⟨0x2224, 0x2224, 0x20C8⟩,
  ⟨0x2226, 0x2226, 0x20C9⟩, ⟨0x222C, 0x222D, 0x20CA⟩, ⟨0x222F, 0x2233, 0x20CC⟩, ⟨0x2238, 0x223C, 0x20D1⟩,
  ⟨0x223E, 0x2247, 0x20D6⟩, ⟨0x2249, 0x224B, 0x20E0⟩, ⟨0x224D, 0x2251, 0x20E3⟩, ⟨0x2253, 0x225F, 0x20E8⟩,
  ⟨0x2262, 0x2263, 0x20F5⟩, ⟨0x2268, 0x226D, 0x20F7⟩, ⟨0x2270, 0x2294, 0x20FD⟩, ⟨0x2296, 0x2298, 0x2122⟩,
  ⟨0x229A, 0x22A4, 0x2125⟩, ⟨0x22A6, 0x22BE, 0x2130⟩, ⟨0x22C0, 0x2311, 0x2149⟩, ⟨0x2313, 0x245F, 0x219B⟩,
  ⟨0x246A, 0x2473, 0x22E8⟩, ⟨0x249C, 0x24FF, 0x22F2⟩, ⟨0x254C, 0x254F, 0x2356⟩, ⟨0x2574, 0x2580, 0x235A⟩,
  ⟨0x2590, 0x2592, 0x2367⟩, ⟨0x2596, 0x259F, 0x236A⟩, ⟨0x25A2, 0x25B1, 0x2374⟩, ⟨0x25B4, 0x25BB, 0x2384⟩,
  ⟨0x25BE, 0x25C5, 0x238C⟩, ⟨0x25C8, 0x25CA, 0x2394⟩, ⟨0x25CC, 0x25CD, 0x2397⟩, ⟨0x25D0, 0x25E1, 0x2399⟩,
  ⟨0x25E6, 0x2604, 0x23AB⟩, ⟨0x2607, 0x2608, 0x23CA⟩, ⟨0x260A, 0x263F, 0x23CC⟩, ⟨0x2641, 0x2641, 0x2402⟩,
  ⟨0x2643, 0x2E80, 0x2403⟩, ⟨0x2E82, 0x2E83, 0x2C41⟩, ⟨0x2E85, 0x2E87, 0x2C43⟩, ⟨0x2E89, 0x2E8A, 0x2C46⟩,
  ⟨0x2E8D, 0x2E96, 0x2C48⟩, ⟨0x2E98, 0x2EA6, 0x2C52⟩, ⟨0x2EA8, 0x2EA9, 0x2C61⟩, ⟨0x2EAB, 0x2EAD, 0x2C63⟩,
  ⟨0x2EAF, 0x2EB2, 0x2C66⟩, ⟨0x2EB4, 0x2EB5, 0x2C6A⟩, ⟨0x2EB8, 0x2EBA, 0x2C6C⟩, ⟨0x2EBC, 0x2EC9, 0x2C6F⟩,
  ⟨0x2ECB, 0x2FEF, 0x2C7D⟩, ⟨0x2FFC, 0x2FFF, 0x2DA2⟩, ⟨0x3004, 0x3004, 0x2DA6⟩, ⟨0x3018, 0x301C, 0x2DA7⟩,
  ⟨0x301F, 0x3020, 0x2DAC⟩, ⟨0x302A, 0x303D, 0x2DAE⟩, ⟨0x303F, 0x3040, 0x2DC2⟩, ⟨0x3094, 0x309A, 0x2DC4⟩,
  ⟨0x309F, 0x30A0, 0x2DCB⟩, ⟨0x30F7, 0x30FB, 0x2DCD⟩, ⟨0x30FF, 0x3104, 0x2DD2⟩, ⟨0x312A, 0x321F, 0x2DD8⟩,
  ⟨0x322A, 0x3230, 0x2ECE⟩, ⟨0x3232, 0x32A2, 0x2ED5⟩, ⟨0x32A4, 0x338D, 0x2F46⟩, ⟨0x3390, 0x339B, 0x3030⟩,
  ⟨0x339F, 0x33A0, 0x303C⟩, ⟨0x33A2, 0x33C3, 0x303E⟩, ⟨0x33C5, 0x33CD, 0x3060⟩, ⟨0x33CF, 0x33D0, 0x3069⟩,
  ⟨0x33D3, 0x33D4, 0x306B⟩, ⟨0x33D6, 0x3446, 0x306D⟩, ⟨0x3448, 0x3472, 0x30DE⟩, ⟨0x3474, 0x359D, 0x3109⟩,
  ⟨0x359F, 0x360D, 0x3233⟩, ⟨0x360F, 0x3619, 0x32A2⟩, ⟨0x361B, 0x3917, 0x32AD⟩, ⟨0x3919, 0x396D, 0x35AA⟩,
  ⟨0x396F, 0x39CE, 0x35FF⟩, ⟨0x39D1, 0x39DE, 0x365F⟩, ⟨0x39E0, 0x3A72, 0x366D⟩, ⟨0x3A74, 0x3B4D, 0x3700⟩,
  ⟨0x3B4F, 0x3C6D, 0x37DA⟩, ⟨0x3C6F, 0x3CDF, 0x38F9⟩, ⟨0x3CE1, 0x4055, 0x396A⟩, ⟨0x4057, 0x415E, 0x3CDF⟩,
  ⟨0x4160, 0x4336, 0x3DE7⟩, ⟨0x4338, 0x43AB, 0x3FBE⟩, ⟨0x43AD, 0x43B0, 0x4032⟩, ⟨0x43B2, 0x43DC, 0x4036⟩,
  ⟨0x43DE, 0x44D5, 0x4061⟩, ⟨0x44D7, 0x464B, 0x4159⟩, ⟨0x464D, 0x4660, 0x42CE⟩, ⟨0x4662, 0x4722, 0x42E2⟩,
  ⟨0x4724, 0x4728, 0x43A3⟩, ⟨0x472A, 0x477B, 0x43A8⟩, ⟨0x477D, 0x478C, 0x43FA⟩, ⟨0x478E, 0x4946, 0x440A⟩,
  ⟨0x4948, 0x4979, 0x45C3⟩, ⟨0x497B, 0x497C, 0x45F5⟩, ⟨0x497E, 0x4981, 0x45F7⟩, ⟨0x4984, 0x4984, 0x45FB⟩,
  ⟨0x4987, 0x499A, 0x45FC⟩, ⟨0x499C, 0x499E, 0x4610⟩, ⟨0x49A0, 0x49B5, 0x4613⟩, ⟨0x49B8, 0x4C76, 0x4629⟩,
  ⟨0x4C78, 0x4C9E, 0x48E8⟩, ⟨0x4CA4, 0x4D12, 0x490F⟩, ⟨0x4D1A, 0x4DAD, 0x497E⟩, ⟨0x4DAF, 0x4DFF, 0x4A12⟩,
  ⟨0x9FA6, 0xD7FE, 0x4A63⟩, ⟨0xE76C, 0xE76C, 0x82BD⟩, ⟨0xE7C8, 0xE7C8, 0x82BE⟩, ⟨0xE7E7, 0xE7F3, 0x82BF⟩,
  ⟨0xE815, 0xE815, 0x82CC⟩, ⟨0xE819, 0xE81D, 0x82CD⟩, ⟨0xE81F, 0xE825, 0x82D2⟩, ⟨0xE827, 0xE82A, 0x82D9⟩,
  ⟨0xE82D, 0xE830, 0x82DD⟩, ⟨0xE833, 0xE83A, 0x82E1⟩, ⟨0xE83C, 0xE842, 0x82E9⟩, ⟨0xE844, 0xE853, 0x82F0⟩,
  ⟨0xE856, 0xE863, 0x8300⟩, ⟨0xE865, 0xF92B, 0x830E⟩, ⟨0xF92D, 0xF978, 0x93D5⟩, ⟨0xF97A, 0xF994, 0x9421⟩,
  ⟨0xF996, 0xF9E6, 0x943C⟩, ⟨0xF9E8, 0xF9F0, 0x948D⟩, ⟨0xF9F2, 0xFA0B, 0x9496⟩, ⟨0xFA10, 0xFA10, 0x94B0⟩,
  ⟨0xFA12, 0xFA12, 0x94B1⟩, ⟨0xFA15, 0xFA17, 0x94B2⟩, ⟨0xFA19, 0xFA1E, 0x94B5⟩, ⟨0xFA22, 0xFA22, 0x94BB⟩,
  ⟨0xFA25, 0xFA26, 0x94BC⟩, ⟨0xFA2A, 0xFE2F, 0x94BE⟩, ⟨0xFE32, 0xFE32, 0x98C4⟩, ⟨0xFE45, 0xFE48, 0x98C5⟩,
  ⟨0xFE53, 0xFE53, 0x98C9⟩, ⟨0xFE58, 0xFE58, 0x98CA⟩, ⟨0xFE67, 0xFE67, 0x98CB⟩, ⟨0xFE6C, 0xFF00, 0x98CC⟩,
  ⟨0xFF5F, 0xFFDF, 0x9961⟩, ⟨0xFFE6, 0xFFFF, 0x99E2⟩]

end KcnTools.Libwc

/-!
GB 18030 and Unicode: `gb18030.c`. A code of two bytes has a row in a table, and one of four bytes is
a number in mixed radix, for which a row is searched.
-/

namespace KcnTools.Libwc

def gb18030N (c : Nat) : Int :=
  ((((c / 2 ^ 24 % 256 : Nat) - 0x81 : Int) * 0x0A + (c / 2 ^ 16 % 256 : Nat) - 0x30) * 0x7E +
    (c / 2 ^ 8 % 256 : Nat) - 0x81) * 0x0A + (c % 256 : Nat) - 0x30

def nGb18030 (n : Nat) : Nat :=
  ((n / 0x0A / 0x7E / 0x0A + 0x81) * 2 ^ 24 + (n / 0x0A / 0x7E % 0x0A + 0x30) * 2 ^ 16 +
    (n / 0x0A % 0x7E + 0x81) * 2 ^ 8 + n % 0x0A + 0x30) % 2 ^ 32

def gb18030Ucs2 : Nat := 0x81308130
def gb18030Ucs2End : Nat := 0x8431A439
def gb18030Ucs4 : Nat := 0x90308130
def gb18030Ucs4End : Nat := 0xE3329A35
def ucs4Error : Nat := 0xFFFFFFFF

def rangeSearch (code : Nat) (map : List Map3) : Option Map3 :=
  map.find? fun m => decide (m.code ≤ code ∧ code ≤ m.code2)

def gbkExtToUcs (cc : Wchar) : Nat :=
  match rangeSearch (cc.code % 2 ^ 16) gbkExtUcsMap with
  | some m => u32 (m.code3 + gbkN cc.code - gbkN m.code2)
  | none => ucs4Error

def rowAt (map : List Map3) (i : Int) : Option Map3 := if 0 ≤ i then map[i.toNat]? else none

/-- The loop of `wc_gb18030_to_ucs`. It is `none` where an index is outside, and where the rounds are
used up. -/
def rowLoop (map : List Map3) (code : Nat) : Nat → Int → Int → Option Int
  | 0, _, _ => none
  | rounds + 1, min, max =>
      let i := (min + max).tdiv 2
      if min = max then some i
      else
        match rowAt map i with
        | none => none
        | some m =>
            if code < m.code3 then rowLoop map code rounds min (i - 1)
            else
              match rowAt map (i + 1) with
              | none => none
              | some next => if next.code3 ≤ code then rowLoop map code rounds (i + 1) max else some i

def rowSearch (map : List Map3) (code : Nat) : Option Int :=
  let max : Int := map.length - 1
  match rowAt map max with
  | none => none
  | some last => if last.code3 ≤ code then some max else rowLoop map code map.length 0 max

def gb18030ToUcs (anyToUcs : Wchar → Nat) (cc : Wchar) : Option Nat :=
  let set := ccsSet cc.ccs
  if set = ccsGbkExt_1 ∨ set = ccsGbkExt_2 then some (gbkExtToUcs (cs128wToGbkExt cc))
  else if set = ccsGbkExt then some (gbkExtToUcs cc)
  else if set = ccsGb18030 then
    if gb18030Ucs2 ≤ cc.code ∧ cc.code ≤ gb18030Ucs2End then
      let code := u32 (gb18030N cc.code - gb18030N gb18030Ucs2)
      match rowSearch ucsGb18030Map code with
      | none => none
      | some i => (rowAt ucsGb18030Map i).map fun m => u32 (m.code + code - m.code3)
    else if gb18030Ucs4 ≤ cc.code ∧ cc.code ≤ gb18030Ucs4End then
      some (u32 (gb18030N cc.code - gb18030N gb18030Ucs4 + 0x10000))
    else some ucs4Error
  else some (anyToUcs cc)

def gb18030Ccs (asUcs : Bool) (ucsToCcs : Nat → Nat) (ucs : Nat) : Nat :=
  if asUcs then ccsGb18030 ||| (ucsToCcs ucs &&& 0xFFFF0000) else ccsGb18030W

def ucsToGb18030 (asUcs : Bool) (ucsToCcs : Nat → Nat) (ucs : Nat) : Wchar :=
  if ucs ≤ 0xFFFF then
    match rangeSearch ucs ucsGbkExtMap with
    | some m => ⟨ccsGbkExt, nGbk (u32 (gbkN m.code3 + ucs - m.code))⟩
    | none =>
        match rangeSearch ucs ucsGb18030Map with
        | some m => ⟨gb18030Ccs asUcs ucsToCcs ucs, nGb18030 (u32 (m.code3 + ucs - m.code + gb18030N gb18030Ucs2))⟩
        | none => ⟨ccsUnknown, 0⟩
  else if ucs ≤ 0x10FFFF then
    ⟨gb18030Ccs asUcs ucsToCcs ucs, nGb18030 (u32 (ucs - 0x10000 + gb18030N gb18030Ucs4))⟩
  else ⟨ccsUnknown, 0⟩

end KcnTools.Libwc
