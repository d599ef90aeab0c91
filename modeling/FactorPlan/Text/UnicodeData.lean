/-!
What the Unicode standard (version 14) says of the characters that names may be written with, beyond
ASCII. All numbers are hexadecimal; `A-B` is a range.

  * `nameStarts`, `nameParts`: the characters that begin a name, and those that may only go on with it;
  * `replacements`: the characters that stand for others, each with those that it stands for. A list
    after the sign is for characters in a row, and one character after the sign of a range is what its
    first one stands for, the next ones standing for the next ones;
  * `compositions`: the characters that are composed of others, written in the same way;
  * `markClasses`: the marks that are put on the character before them, with their classes.
-/

namespace FactorPlan

namespace Text

namespace Unicode

/-- The characters that begin a name. -/
def nameStarts : List String :=
  ["AA B5 BA C0-D6 D8-F6 F8-2C1 2C6-2D1 2E0-2E4 2EC 2EE 370-374 376-377 37B-37D 37F 386 388-38A 38C 38E-3A1",
   "3A3-3F5 3F7-481 48A-52F 531-556 559 560-588 5D0-5EA 5EF-5F2 620-64A 66E-66F 671-6D3 6D5 6E5-6E6 6EE-6EF",
   "6FA-6FC 6FF 710 712-72F 74D-7A5 7B1 7CA-7EA 7F4-7F5 7FA 800-815 81A 824 828 840-858 860-86A 870-887",
   "889-88E 8A0-8C9 904-939 93D 950 958-961 971-980 985-98C 98F-990 993-9A8 9AA-9B0 9B2 9B6-9B9 9BD 9CE",
   "9DC-9DD 9DF-9E1 9F0-9F1 9FC A05-A0A A0F-A10 A13-A28 A2A-A30 A32-A33 A35-A36 A38-A39 A59-A5C A5E A72-A74",
   "A85-A8D A8F-A91 A93-AA8 AAA-AB0 AB2-AB3 AB5-AB9 ABD AD0 AE0-AE1 AF9 B05-B0C B0F-B10 B13-B28 B2A-B30",
   "B32-B33 B35-B39 B3D B5C-B5D B5F-B61 B71 B83 B85-B8A B8E-B90 B92-B95 B99-B9A B9C B9E-B9F BA3-BA4 BA8-BAA",
   "BAE-BB9 BD0 C05-C0C C0E-C10 C12-C28 C2A-C39 C3D C58-C5A C5D C60-C61 C80 C85-C8C C8E-C90 C92-CA8 CAA-CB3",
   "CB5-CB9 CBD CDD-CDE CE0-CE1 CF1-CF2 D04-D0C D0E-D10 D12-D3A D3D D4E D54-D56 D5F-D61 D7A-D7F D85-D96",
   "D9A-DB1 DB3-DBB DBD DC0-DC6 E01-E30 E32 E40-E46 E81-E82 E84 E86-E8A E8C-EA3 EA5 EA7-EB0 EB2 EBD EC0-EC4",
   "EC6 EDC-EDF F00 F40-F47 F49-F6C F88-F8C 1000-102A 103F 1050-1055 105A-105D 1061 1065-1066 106E-1070",
   "1075-1081 108E 10A0-10C5 10C7 10CD 10D0-10FA 10FC-1248 124A-124D 1250-1256 1258 125A-125D 1260-1288",
   "128A-128D 1290-12B0 12B2-12B5 12B8-12BE 12C0 12C2-12C5 12C8-12D6 12D8-1310 1312-1315 1318-135A 1380-138F",
   "13A0-13F5 13F8-13FD 1401-166C 166F-167F 1681-169A 16A0-16EA 16EE-16F8 1700-1711 171F-1731 1740-1751",
   "1760-176C 176E-1770 1780-17B3 17D7 17DC 1820-1878 1880-18A8 18AA 18B0-18F5 1900-191E 1950-196D 1970-1974",
   "1980-19AB 19B0-19C9 1A00-1A16 1A20-1A54 1AA7 1B05-1B33 1B45-1B4C 1B83-1BA0 1BAE-1BAF 1BBA-1BE5 1C00-1C23",
   "1C4D-1C4F 1C5A-1C7D 1C80-1C88 1C90-1CBA 1CBD-1CBF 1CE9-1CEC 1CEE-1CF3 1CF5-1CF6 1CFA 1D00-1DBF 1E00-1F15",
   "1F18-1F1D 1F20-1F45 1F48-1F4D 1F50-1F57 1F59 1F5B 1F5D 1F5F-1F7D 1F80-1FB4 1FB6-1FBC 1FBE 1FC2-1FC4",
   "1FC6-1FCC 1FD0-1FD3 1FD6-1FDB 1FE0-1FEC 1FF2-1FF4 1FF6-1FFC 2071 207F 2090-209C 2102 2107 210A-2113 2115",
   "2118-211D 2124 2126 2128 212A-2139 213C-213F 2145-2149 214E 2160-2188 2C00-2CE4 2CEB-2CEE 2CF2-2CF3",
   "2D00-2D25 2D27 2D2D 2D30-2D67 2D6F 2D80-2D96 2DA0-2DA6 2DA8-2DAE 2DB0-2DB6 2DB8-2DBE 2DC0-2DC6 2DC8-2DCE",
   "2DD0-2DD6 2DD8-2DDE 3005-3007 3021-3029 3031-3035 3038-303C 3041-3096 309D-309F 30A1-30FA 30FC-30FF",
   "3105-312F 3131-318E 31A0-31BF 31F0-31FF 3400-4DBF 4E00-A48C A4D0-A4FD A500-A60C A610-A61F A62A-A62B",
   "A640-A66E A67F-A69D A6A0-A6EF A717-A71F A722-A788 A78B-A7CA A7D0-A7D1 A7D3 A7D5-A7D9 A7F2-A801 A803-A805",
   "A807-A80A A80C-A822 A840-A873 A882-A8B3 A8F2-A8F7 A8FB A8FD-A8FE A90A-A925 A930-A946 A960-A97C A984-A9B2",
   "A9CF A9E0-A9E4 A9E6-A9EF A9FA-A9FE AA00-AA28 AA40-AA42 AA44-AA4B AA60-AA76 AA7A AA7E-AAAF AAB1 AAB5-AAB6",
   "AAB9-AABD AAC0 AAC2 AADB-AADD AAE0-AAEA AAF2-AAF4 AB01-AB06 AB09-AB0E AB11-AB16 AB20-AB26 AB28-AB2E",
   "AB30-AB5A AB5C-AB69 AB70-ABE2 AC00-D7A3 D7B0-D7C6 D7CB-D7FB F900-FA6D FA70-FAD9 FB00-FB06 FB13-FB17 FB1D",
   "FB1F-FB28 FB2A-FB36 FB38-FB3C FB3E FB40-FB41 FB43-FB44 FB46-FBB1 FBD3-FC5D FC64-FD3D FD50-FD8F FD92-FDC7",
   "FDF0-FDF9 FE71 FE73 FE77 FE79 FE7B FE7D FE7F-FEFC FF21-FF3A FF41-FF5A FF66-FF9D FFA0-FFBE FFC2-FFC7",
   "FFCA-FFCF FFD2-FFD7 FFDA-FFDC 10000-1000B 1000D-10026 10028-1003A 1003C-1003D 1003F-1004D 10050-1005D",
   "10080-100FA 10140-10174 10280-1029C 102A0-102D0 10300-1031F 1032D-1034A 10350-10375 10380-1039D",
   "103A0-103C3 103C8-103CF 103D1-103D5 10400-1049D 104B0-104D3 104D8-104FB 10500-10527 10530-10563",
   "10570-1057A 1057C-1058A 1058C-10592 10594-10595 10597-105A1 105A3-105B1 105B3-105B9 105BB-105BC",
   "10600-10736 10740-10755 10760-10767 10780-10785 10787-107B0 107B2-107BA 10800-10805 10808 1080A-10835",
   "10837-10838 1083C 1083F-10855 10860-10876 10880-1089E 108E0-108F2 108F4-108F5 10900-10915 10920-10939",
   "10980-109B7 109BE-109BF 10A00 10A10-10A13 10A15-10A17 10A19-10A35 10A60-10A7C 10A80-10A9C 10AC0-10AC7",
   "10AC9-10AE4 10B00-10B35 10B40-10B55 10B60-10B72 10B80-10B91 10C00-10C48 10C80-10CB2 10CC0-10CF2",
   "10D00-10D23 10E80-10EA9 10EB0-10EB1 10F00-10F1C 10F27 10F30-10F45 10F70-10F81 10FB0-10FC4 10FE0-10FF6",
   "11003-11037 11071-11072 11075 11083-110AF 110D0-110E8 11103-11126 11144 11147 11150-11172 11176",
   "11183-111B2 111C1-111C4 111DA 111DC 11200-11211 11213-1122B 11280-11286 11288 1128A-1128D 1128F-1129D",
   "1129F-112A8 112B0-112DE 11305-1130C 1130F-11310 11313-11328 1132A-11330 11332-11333 11335-11339 1133D",
   "11350 1135D-11361 11400-11434 11447-1144A 1145F-11461 11480-114AF 114C4-114C5 114C7 11580-115AE",
   "115D8-115DB 11600-1162F 11644 11680-116AA 116B8 11700-1171A 11740-11746 11800-1182B 118A0-118DF",
   "118FF-11906 11909 1190C-11913 11915-11916 11918-1192F 1193F 11941 119A0-119A7 119AA-119D0 119E1 119E3",
   "11A00 11A0B-11A32 11A3A 11A50 11A5C-11A89 11A9D 11AB0-11AF8 11C00-11C08 11C0A-11C2E 11C40 11C72-11C8F",
   "11D00-11D06 11D08-11D09 11D0B-11D30 11D46 11D60-11D65 11D67-11D68 11D6A-11D89 11D98 11EE0-11EF2 11FB0",
   "12000-12399 12400-1246E 12480-12543 12F90-12FF0 13000-1342E 14400-14646 16800-16A38 16A40-16A5E",
   "16A70-16ABE 16AD0-16AED 16B00-16B2F 16B40-16B43 16B63-16B77 16B7D-16B8F 16E40-16E7F 16F00-16F4A 16F50",
   "16F93-16F9F 16FE0-16FE1 16FE3 17000-187F7 18800-18CD5 18D00-18D08 1AFF0-1AFF3 1AFF5-1AFFB 1AFFD-1AFFE",
   "1B000-1B122 1B150-1B152 1B164-1B167 1B170-1B2FB 1BC00-1BC6A 1BC70-1BC7C 1BC80-1BC88 1BC90-1BC99",
   "1D400-1D454 1D456-1D49C 1D49E-1D49F 1D4A2 1D4A5-1D4A6 1D4A9-1D4AC 1D4AE-1D4B9 1D4BB 1D4BD-1D4C3",
   "1D4C5-1D505 1D507-1D50A 1D50D-1D514 1D516-1D51C 1D51E-1D539 1D53B-1D53E 1D540-1D544 1D546 1D54A-1D550",
   "1D552-1D6A5 1D6A8-1D6C0 1D6C2-1D6DA 1D6DC-1D6FA 1D6FC-1D714 1D716-1D734 1D736-1D74E 1D750-1D76E",
   "1D770-1D788 1D78A-1D7A8 1D7AA-1D7C2 1D7C4-1D7CB 1DF00-1DF1E 1E100-1E12C 1E137-1E13D 1E14E 1E290-1E2AD",
   "1E2C0-1E2EB 1E7E0-1E7E6 1E7E8-1E7EB 1E7ED-1E7EE 1E7F0-1E7FE 1E800-1E8C4 1E900-1E943 1E94B 1EE00-1EE03",
   "1EE05-1EE1F 1EE21-1EE22 1EE24 1EE27 1EE29-1EE32 1EE34-1EE37 1EE39 1EE3B 1EE42 1EE47 1EE49 1EE4B",
   "1EE4D-1EE4F 1EE51-1EE52 1EE54 1EE57 1EE59 1EE5B 1EE5D 1EE5F 1EE61-1EE62 1EE64 1EE67-1EE6A 1EE6C-1EE72",
   "1EE74-1EE77 1EE79-1EE7C 1EE7E 1EE80-1EE89 1EE8B-1EE9B 1EEA1-1EEA3 1EEA5-1EEA9 1EEAB-1EEBB 20000-2A6DF",
   "2A700-2B738 2B740-2B81D 2B820-2CEA1 2CEB0-2EBE0 2F800-2FA1D 30000-3134A"]

/-- The characters that may stand in a name but not begin it. -/
def nameParts : List String :=
  ["B7 300-36F 387 483-487 591-5BD 5BF 5C1-5C2 5C4-5C5 5C7 610-61A 64B-669 670 6D6-6DC 6DF-6E4 6E7-6E8",
   "6EA-6ED 6F0-6F9 711 730-74A 7A6-7B0 7C0-7C9 7EB-7F3 7FD 816-819 81B-823 825-827 829-82D 859-85B 898-89F",
   "8CA-8E1 8E3-903 93A-93C 93E-94F 951-957 962-963 966-96F 981-983 9BC 9BE-9C4 9C7-9C8 9CB-9CD 9D7 9E2-9E3",
   "9E6-9EF 9FE A01-A03 A3C A3E-A42 A47-A48 A4B-A4D A51 A66-A71 A75 A81-A83 ABC ABE-AC5 AC7-AC9 ACB-ACD",
   "AE2-AE3 AE6-AEF AFA-AFF B01-B03 B3C B3E-B44 B47-B48 B4B-B4D B55-B57 B62-B63 B66-B6F B82 BBE-BC2 BC6-BC8",
   "BCA-BCD BD7 BE6-BEF C00-C04 C3C C3E-C44 C46-C48 C4A-C4D C55-C56 C62-C63 C66-C6F C81-C83 CBC CBE-CC4",
   "CC6-CC8 CCA-CCD CD5-CD6 CE2-CE3 CE6-CEF D00-D03 D3B-D3C D3E-D44 D46-D48 D4A-D4D D57 D62-D63 D66-D6F",
   "D81-D83 DCA DCF-DD4 DD6 DD8-DDF DE6-DEF DF2-DF3 E31 E33-E3A E47-E4E E50-E59 EB1 EB3-EBC EC8-ECD ED0-ED9",
   "F18-F19 F20-F29 F35 F37 F39 F3E-F3F F71-F84 F86-F87 F8D-F97 F99-FBC FC6 102B-103E 1040-1049 1056-1059",
   "105E-1060 1062-1064 1067-106D 1071-1074 1082-108D 108F-109D 135D-135F 1369-1371 1712-1715 1732-1734",
   "1752-1753 1772-1773 17B4-17D3 17DD 17E0-17E9 180B-180D 180F-1819 18A9 1920-192B 1930-193B 1946-194F",
   "19D0-19DA 1A17-1A1B 1A55-1A5E 1A60-1A7C 1A7F-1A89 1A90-1A99 1AB0-1ABD 1ABF-1ACE 1B00-1B04 1B34-1B44",
   "1B50-1B59 1B6B-1B73 1B80-1B82 1BA1-1BAD 1BB0-1BB9 1BE6-1BF3 1C24-1C37 1C40-1C49 1C50-1C59 1CD0-1CD2",
   "1CD4-1CE8 1CED 1CF4 1CF7-1CF9 1DC0-1DFF 203F-2040 2054 20D0-20DC 20E1 20E5-20F0 2CEF-2CF1 2D7F 2DE0-2DFF",
   "302A-302F 3099-309A A620-A629 A66F A674-A67D A69E-A69F A6F0-A6F1 A802 A806 A80B A823-A827 A82C A880-A881",
   "A8B4-A8C5 A8D0-A8D9 A8E0-A8F1 A8FF-A909 A926-A92D A947-A953 A980-A983 A9B3-A9C0 A9D0-A9D9 A9E5 A9F0-A9F9",
   "AA29-AA36 AA43 AA4C-AA4D AA50-AA59 AA7B-AA7D AAB0 AAB2-AAB4 AAB7-AAB8 AABE-AABF AAC1 AAEB-AAEF AAF5-AAF6",
   "ABE3-ABEA ABEC-ABED ABF0-ABF9 FB1E FE00-FE0F FE20-FE2F FE33-FE34 FE4D-FE4F FF10-FF19 FF3F FF9E-FF9F",
   "101FD 102E0 10376-1037A 104A0-104A9 10A01-10A03 10A05-10A06 10A0C-10A0F 10A38-10A3A 10A3F 10AE5-10AE6",
   "10D24-10D27 10D30-10D39 10EAB-10EAC 10F46-10F50 10F82-10F85 11000-11002 11038-11046 11066-11070",
   "11073-11074 1107F-11082 110B0-110BA 110C2 110F0-110F9 11100-11102 11127-11134 11136-1113F 11145-11146",
   "11173 11180-11182 111B3-111C0 111C9-111CC 111CE-111D9 1122C-11237 1123E 112DF-112EA 112F0-112F9",
   "11300-11303 1133B-1133C 1133E-11344 11347-11348 1134B-1134D 11357 11362-11363 11366-1136C 11370-11374",
   "11435-11446 11450-11459 1145E 114B0-114C3 114D0-114D9 115AF-115B5 115B8-115C0 115DC-115DD 11630-11640",
   "11650-11659 116AB-116B7 116C0-116C9 1171D-1172B 11730-11739 1182C-1183A 118E0-118E9 11930-11935",
   "11937-11938 1193B-1193E 11940 11942-11943 11950-11959 119D1-119D7 119DA-119E0 119E4 11A01-11A0A",
   "11A33-11A39 11A3B-11A3E 11A47 11A51-11A5B 11A8A-11A99 11C2F-11C36 11C38-11C3F 11C50-11C59 11C92-11CA7",
   "11CA9-11CB6 11D31-11D36 11D3A 11D3C-11D3D 11D3F-11D45 11D47 11D50-11D59 11D8A-11D8E 11D90-11D91",
   "11D93-11D97 11DA0-11DA9 11EF3-11EF6 16A60-16A69 16AC0-16AC9 16AF0-16AF4 16B30-16B36 16B50-16B59 16F4F",
   "16F51-16F87 16F8F-16F92 16FE4 16FF0-16FF1 1BC9D-1BC9E 1CF00-1CF2D 1CF30-1CF46 1D165-1D169 1D16D-1D172",
   "1D17B-1D182 1D185-1D18B 1D1AA-1D1AD 1D242-1D244 1D7CE-1D7FF 1DA00-1DA36 1DA3B-1DA6C 1DA75 1DA84",
   "1DA9B-1DA9F 1DAA1-1DAAF 1E000-1E006 1E008-1E018 1E01B-1E021 1E023-1E024 1E026-1E02A 1E130-1E136",
   "1E140-1E149 1E2AE 1E2EC-1E2F9 1E8D0-1E8D6 1E944-1E94A 1E950-1E959 1FBF0-1FBF9 E0100-E01EF"]

/-- The characters that stand for others. -/
def replacements : List String :=
  ["AA=61 B5=3BC BA=6F 132=49.4A,69.6A 13F=4C.B7,6C.B7 149=2BC.6E 17F=73",
   "1C4=44.17D,44.17E,64.17E,4C.4A,4C.6A,6C.6A,4E.4A,4E.6A 1CC=6E.6A 1F1=44.5A,44.7A,64.7A",
   "2B0=68,266,6A,72,279,27B,281,77 2B8=79 2E0=263,6C,73,78,295 340=300,301 343=313,308.301 374=2B9 387=B7",
   "3D0=3B2,3B8,3A5,38E,3AB,3C6,3C0 3F0=3BA,3C1,3C2 3F4=398,3B5 3F9=3A3 587=565.582",
   "675=627.674,648.674,6C7.674,64A.674 958=915.93C,916.93C,917.93C,91C.93C,921.93C,922.93C,92B.93C,92F.93C",
   "9DC=9A1.9BC,9A2.9BC 9DF=9AF.9BC A33=A32.A3C A36=A38.A3C A59=A16.A3C,A17.A3C,A1C.A3C A5E=A2B.A3C",
   "B5C=B21.B3C,B22.B3C E33=E4D.E32 EB3=ECD.EB2 EDC=EAB.E99,EAB.EA1 F43=F42.FB7 F4D=F4C.FB7 F52=F51.FB7",
   "F57=F56.FB7 F5C=F5B.FB7 F69=F40.FB5 F73=F71.F72 F75=F71.F74,FB2.F80,FB2.F71.F80,FB3.F80,FB3.F71.F80",
   "F81=F71.F80 F93=F92.FB7 F9D=F9C.FB7 FA2=FA1.FB7 FA7=FA6.FB7 FAC=FAB.FB7 FB9=F90.FB5 10FC=10DC",
   "1D2C=41,C6,42 1D30=44,45,18E 1D33-1D3A=47 1D3C=4F,222,50,52,54,55,57,61",
   "1D44=250,251,1D02,62,64,65,259,25B 1D4C=25C,67 1D4F=6B,6D,14B,6F,254,1D16,1D17,70",
   "1D57=74,75,1D1D,26F,76,1D25 1D5D-1D5F=3B2 1D60=3C6,3C7,69,72,75,76,3B2,3B3 1D68=3C1,3C6,3C7 1D78=43D",
   "1D9B=252,63,255,F0,25C,66,25F,261 1DA3=265 1DA4-1DA6=268 1DA7=1D7B,29D,26D,1D85,29F,271,270",
   "1DAE-1DB1=272 1DB2=278,282,283,1AB,289,28A,1D1C,28B 1DBA=28C,7A 1DBC-1DBE=290 1DBF=3B8 1E9A=61.2BE,1E61",
   "1F71=3AC 1F73=3AD 1F75=3AE 1F77=3AF 1F79=3CC 1F7B=3CD 1F7D=3CE 1FBB=386 1FBE=3B9 1FC9=388 1FCB=389",
   "1FD3=390 1FDB=38A 1FE3=3B0 1FEB=38E 1FF9=38C 1FFB=38F 2071=69 207F=6E 2090=61,65,6F,78,259,68",
   "2096-2099=6B 209A=70,73,74 2102=43 2107=190 210A=67,48,48,48,68,127,49,49 2112=4C,6C 2115=4E",
   "2119-211B=50 211C=52,52 2124=5A 2126=3A9 2128=5A 212A=4B,C5,42,43 212F=65,45,46 2133=4D,6F 2135-2138=5D0",
   "2139=69 213C=3C0,3B3,393,3A0 2145=44,64,65,69,6A",
   "2160=49,49.49,49.49.49,49.56,56,56.49,56.49.49,56.49.49.49 2168=49.58,58,58.49,58.49.49,4C,43,44,4D",
   "2170=69,69.69,69.69.69,69.76,76,76.69,76.69.69,76.69.69.69 2178=69.78,78,78.69,78.69.69,6C,63,64,6D",
   "2C7C=6A,56 2D6F=2D61 3038=5341,5344,5345 309F=3088.308A 30FF=30B3.30C8",
   "3131=1100,1101,11AA,1102,11AC,11AD 3137-3139=1103 313A-313F=11B0 3140=111A 3141-3143=1106 3144=1121",
   "3145-314E=1109 314F-3163=1161 3164=1160,1114,1115,11C7,11C8,11CC,11CE,11D3",
   "316C=11D7,11D9,111C,11DD,11DF,111D,111E,1120 3174=1122,1123,1127,1129 3178-317C=112B",
   "317D=1132,1136,1140,1147,114C,11F1,11F2 3184-3186=1157 3187=1184,1185,1188,1191,1192,1194,119E,11A1",
   "A69C=44A,44C A770=A76F A7F2=43,46,51 A7F8=126,153 AB5C=A727,AB37,26B,AB52 AB69=28D",
   "F900=8C48,66F4,8ECA,8CC8,6ED1,4E32,53E5,9F9C F908=9F9C,5951,91D1,5587,5948,61F6,7669,7F85",
   "F910=863F,87BA,88F8,908F,6A02,6D1B,70D9,73DE F918=843D,916A,99F1,4E82,5375,6B04,721B,862D",
   "F920=9E1E,5D50,6FEB,85CD,8964,62C9,81D8,881F F928=5ECA,6717,6D6A,72FC,90CE,4F86,51B7,52DE",
   "F930=64C4,6AD3,7210,76E7,8001,8606,865C,8DEF F938=9732,9B6F,9DFA,788C,797F,7DA0,83C9,9304",
   "F940=9E7F,8AD6,58DF,5F04,7C60,807E,7262,78CA F948=8CC2,96F7,58D8,5C62,6A13,6DDA,6F0F,7D2F",
   "F950=7E37,964B,52D2,808B,51DC,51CC,7A1C,7DBE F958=83F1,9675,8B80,62CF,6A02,8AFE,4E39,5BE7",
   "F960=6012,7387,7570,5317,78FB,4FBF,5FA9,4E0D F968=6CCC,6578,7D22,53C3,585E,7701,8449,8AAA",
   "F970=6BBA,8FB0,6C88,62FE,82E5,63A0,7565,4EAE F978=5169,51C9,6881,7CE7,826F,8AD2,91CF,52F5",
   "F980=5442,5973,5EEC,65C5,6FFE,792A,95AD,9A6A F988=9E97,9ECE,529B,66C6,6B77,8F62,5E74,6190",
   "F990=6200,649A,6F23,7149,7489,79CA,7DF4,806F F998=8F26,84EE,9023,934A,5217,52A3,54BD,70C8",
   "F9A0=88C2,8AAA,5EC9,5FF5,637B,6BAE,7C3E,7375 F9A8=4EE4,56F9,5BE7,5DBA,601C,73B2,7469,7F9A",
   "F9B0=8046,9234,96F6,9748,9818,4F8B,79AE,91B4 F9B8=96B8,60E1,4E86,50DA,5BEE,5C3F,6599,6A02",
   "F9C0=71CE,7642,84FC,907C,9F8D,6688,962E,5289 F9C8=677B,67F3,6D41,6E9C,7409,7559,786B,7D10",
   "F9D0=985E,516D,622E,9678,502B,5D19,6DEA,8F2A F9D8=5F8B,6144,6817,7387,9686,5229,540F,5C65",
   "F9E0=6613,674E,68A8,6CE5,7406,75E2,7F79,88CF F9E8=88E1,91CC,96E2,533F,6EBA,541D,71D0,7498",
   "F9F0=85FA,96A3,9C57,9E9F,6797,6DCB,81E8,7ACB F9F8=7B20,7C92,72C0,7099,8B58,4EC0,8336,523A",
   "FA00=5207,5EA6,62D3,7CD6,5B85,6D1E,66B4,8F3B FA08=884C,964D,898B,5ED3,5140,55C0 FA10=585A FA12=6674",
   "FA15=51DE,732A,76CA,793C,795E,7965,798F,9756 FA1D=7CBE,7FBD FA20=8612 FA22=8AF8 FA25=9038,90FD",
   "FA2A=98EF,98FC,9928,9DB4,90DE,96B7,4FAE,50E7 FA32=514D,52C9,52E4,5351,559D,5606,5668,5840",
   "FA3A=58A8,5C64,5C6E,6094,6168,618E,61F2,654F FA42=65E2,6691,6885,6D77,6E1A,6F22,716E,722B",
   "FA4A=7422,7891,793E,7949,7948,7950,7956,795D FA52=798D,798E,7A40,7A81,7BC0,7DF4,7E09,7E41",
   "FA5A=7F72,8005,81ED,8279,8279,8457,8910,8996 FA62=8B01,8B39,8CD3,8D08,8FB6,9038,96E3,97FF",
   "FA6A=983B,6075,242EE,8218 FA70=4E26,51B5,5168,4F80,5145,5180,52C7,52FA",
   "FA78=559D,5555,5599,55E2,585A,58B3,5944,5954 FA80=5A62,5B28,5ED2,5ED9,5F69,5FAD,60D8,614E",
   "FA88=6108,618E,6160,61F2,6234,63C4,641C,6452 FA90=6556,6674,6717,671B,6756,6B79,6BBA,6D41",
   "FA98=6EDB,6ECB,6F22,701E,716E,77A7,7235,72AF FAA0=732A,7471,7506,753B,761D,761F,76CA,76DB",
   "FAA8=76F4,774A,7740,78CC,7AB1,7BC0,7C7B,7D5B FAB0=7DF4,7F3E,8005,8352,83EF,8779,8941,8986",
   "FAB8=8996,8ABF,8AF8,8ACB,8B01,8AFE,8AED,8B39 FAC0=8B8A,8D08,8F38,9072,9199,9276,967C,96E3",
   "FAC8=9756,97DB,97FF,980B,983B,9B12,9F9C,2284A FAD0=22844,233D5,3B9D,4018,4039,25249,25CD0,27ED3",
   "FAD8=9F43,9F8E FB00=66.66,66.69,66.6C,66.66.69,66.66.6C,73.74,73.74",
   "FB13=574.576,574.565,574.56B,57E.576,574.56D FB1D=5D9.5B4 FB1F=5F2.5B7,5E2,5D0,5D3,5D4 FB24-FB26=5DB",
   "FB27=5E8,5EA FB2A=5E9.5C1,5E9.5C2,5E9.5BC.5C1,5E9.5BC.5C2,5D0.5B7,5D0.5B8,5D0.5BC,5D1.5BC",
   "FB32=5D2.5BC,5D3.5BC,5D4.5BC,5D5.5BC,5D6.5BC FB38=5D8.5BC,5D9.5BC,5DA.5BC,5DB.5BC,5DC.5BC FB3E=5DE.5BC",
   "FB40=5E0.5BC,5E1.5BC FB43=5E3.5BC,5E4.5BC",
   "FB46=5E6.5BC,5E7.5BC,5E8.5BC,5E9.5BC,5EA.5BC,5D5.5B9,5D1.5BF,5DB.5BF",
   "FB4E=5E4.5BF,5D0.5DC,671,671,67B,67B,67B,67B FB56=67E,67E,67E,67E,680,680,680,680",
   "FB5E=67A,67A,67A,67A,67F,67F,67F,67F FB66=679,679,679,679,6A4,6A4,6A4,6A4",
   "FB6E=6A6,6A6,6A6,6A6,684,684,684,684 FB76=683,683,683,683,686,686,686,686",
   "FB7E=687,687,687,687,68D,68D,68C,68C FB86=68E,68E,688,688,698,698,691,691",
   "FB8E=6A9,6A9,6A9,6A9,6AF,6AF,6AF,6AF FB96=6B3,6B3,6B3,6B3,6B1,6B1,6B1,6B1",
   "FB9E=6BA,6BA,6BB,6BB,6BB,6BB,6C0,6C0 FBA6=6C1,6C1,6C1,6C1,6BE,6BE,6BE,6BE FBAE=6D2,6D2,6D3,6D3",
   "FBD3=6AD,6AD,6AD,6AD,6C7,6C7,6C6,6C6 FBDB=6C8,6C8,6C7.674,6CB,6CB,6C5,6C5,6C9",
   "FBE3=6C9,6D0,6D0,6D0,6D0,649,649,626.627",
   "FBEB=626.627,626.6D5,626.6D5,626.648,626.648,626.6C7,626.6C7,626.6C6",
   "FBF3=626.6C6,626.6C8,626.6C8,626.6D0,626.6D0,626.6D0,626.649,626.649",
   "FBFB=626.649,6CC,6CC,6CC,6CC,626.62C,626.62D,626.645",
   "FC03=626.649,626.64A,628.62C,628.62D,628.62E,628.645,628.649,628.64A",
   "FC0B=62A.62C,62A.62D,62A.62E,62A.645,62A.649,62A.64A,62B.62C,62B.645",
   "FC13=62B.649,62B.64A,62C.62D,62C.645,62D.62C,62D.645,62E.62C,62E.62D",
   "FC1B=62E.645,633.62C,633.62D,633.62E,633.645,635.62D,635.645,636.62C",
   "FC23=636.62D,636.62E,636.645,637.62D,637.645,638.645,639.62C,639.645",
   "FC2B=63A.62C,63A.645,641.62C,641.62D,641.62E,641.645,641.649,641.64A",
   "FC33=642.62D,642.645,642.649,642.64A,643.627,643.62C,643.62D,643.62E",
   "FC3B=643.644,643.645,643.649,643.64A,644.62C,644.62D,644.62E,644.645",
   "FC43=644.649,644.64A,645.62C,645.62D,645.62E,645.645,645.649,645.64A",
   "FC4B=646.62C,646.62D,646.62E,646.645,646.649,646.64A,647.62C,647.645",
   "FC53=647.649,647.64A,64A.62C,64A.62D,64A.62E,64A.645,64A.649,64A.64A FC5B=630.670,631.670,649.670",
   "FC64=626.631,626.632,626.645,626.646,626.649,626.64A,628.631,628.632",
   "FC6C=628.645,628.646,628.649,628.64A,62A.631,62A.632,62A.645,62A.646",
   "FC74=62A.649,62A.64A,62B.631,62B.632,62B.645,62B.646,62B.649,62B.64A",
   "FC7C=641.649,641.64A,642.649,642.64A,643.627,643.644,643.645,643.649",
   "FC84=643.64A,644.645,644.649,644.64A,645.627,645.645,646.631,646.632",
   "FC8C=646.645,646.646,646.649,646.64A,649.670,64A.631,64A.632,64A.645",
   "FC94=64A.646,64A.649,64A.64A,626.62C,626.62D,626.62E,626.645,626.647",
   "FC9C=628.62C,628.62D,628.62E,628.645,628.647,62A.62C,62A.62D,62A.62E",
   "FCA4=62A.645,62A.647,62B.645,62C.62D,62C.645,62D.62C,62D.645,62E.62C",
   "FCAC=62E.645,633.62C,633.62D,633.62E,633.645,635.62D,635.62E,635.645",
   "FCB4=636.62C,636.62D,636.62E,636.645,637.62D,638.645,639.62C,639.645",
   "FCBC=63A.62C,63A.645,641.62C,641.62D,641.62E,641.645,642.62D,642.645",
   "FCC4=643.62C,643.62D,643.62E,643.644,643.645,644.62C,644.62D,644.62E",
   "FCCC=644.645,644.647,645.62C,645.62D,645.62E,645.645,646.62C,646.62D",
   "FCD4=646.62E,646.645,646.647,647.62C,647.645,647.670,64A.62C,64A.62D",
   "FCDC=64A.62E,64A.645,64A.647,626.645,626.647,628.645,628.647,62A.645",
   "FCE4=62A.647,62B.645,62B.647,633.645,633.647,634.645,634.647,643.644",
   "FCEC=643.645,644.645,646.645,646.647,64A.645,64A.647,640.64E.651,640.64F.651",
   "FCF4=640.650.651,637.649,637.64A,639.649,639.64A,63A.649,63A.64A,633.649",
   "FCFC=633.64A,634.649,634.64A,62D.649,62D.64A,62C.649,62C.64A,62E.649",
   "FD04=62E.64A,635.649,635.64A,636.649,636.64A,634.62C,634.62D,634.62E",
   "FD0C=634.645,634.631,633.631,635.631,636.631,637.649,637.64A,639.649",
   "FD14=639.64A,63A.649,63A.64A,633.649,633.64A,634.649,634.64A,62D.649",
   "FD1C=62D.64A,62C.649,62C.64A,62E.649,62E.64A,635.649,635.64A,636.649",
   "FD24=636.64A,634.62C,634.62D,634.62E,634.645,634.631,633.631,635.631",
   "FD2C=636.631,634.62C,634.62D,634.62E,634.645,633.647,634.647,637.645",
   "FD34=633.62C,633.62D,633.62E,634.62C,634.62D,634.62E,637.645,638.645 FD3C=627.64B,627.64B",
   "FD50=62A.62C.645,62A.62D.62C,62A.62D.62C,62A.62D.645,62A.62E.645,62A.645.62C,62A.645.62D,62A.645.62E",
   "FD58=62C.645.62D,62C.645.62D,62D.645.64A,62D.645.649,633.62D.62C,633.62C.62D,633.62C.649,633.645.62D",
   "FD60=633.645.62D,633.645.62C,633.645.645,633.645.645,635.62D.62D,635.62D.62D,635.645.645,634.62D.645",
   "FD68=634.62D.645,634.62C.64A,634.645.62E,634.645.62E,634.645.645,634.645.645,636.62D.649,636.62E.645",
   "FD70=636.62E.645,637.645.62D,637.645.62D,637.645.645,637.645.64A,639.62C.645,639.645.645,639.645.645",
   "FD78=639.645.649,63A.645.645,63A.645.64A,63A.645.649,641.62E.645,641.62E.645,642.645.62D,642.645.645",
   "FD80=644.62D.645,644.62D.64A,644.62D.649,644.62C.62C,644.62C.62C,644.62E.645,644.62E.645,644.645.62D",
   "FD88=644.645.62D,645.62D.62C,645.62D.645,645.62D.64A,645.62C.62D,645.62C.645,645.62E.62C,645.62E.645",
   "FD92=645.62C.62E,647.645.62C,647.645.645,646.62D.645,646.62D.649,646.62C.645,646.62C.645,646.62C.649",
   "FD9A=646.645.64A,646.645.649,64A.645.645,64A.645.645,628.62E.64A,62A.62C.64A,62A.62C.649,62A.62E.64A",
   "FDA2=62A.62E.649,62A.645.64A,62A.645.649,62C.645.64A,62C.62D.649,62C.645.649,633.62E.649,635.62D.64A",
   "FDAA=634.62D.64A,636.62D.64A,644.62C.64A,644.645.64A,64A.62D.64A,64A.62C.64A,64A.645.64A,645.645.64A",
   "FDB2=642.645.64A,646.62D.64A,642.645.62D,644.62D.645,639.645.64A,643.645.64A,646.62C.62D,645.62E.64A",
   "FDBA=644.62C.645,643.645.645,644.62C.645,646.62C.62D,62C.62D.64A,62D.62C.64A,645.62C.64A,641.645.64A",
   "FDC2=628.62D.64A,643.645.645,639.62C.645,635.645.645,633.62E.64A,646.62C.64A",
   "FDF0=635.644.6D2,642.644.6D2,627.644.644.647,627.643.628.631,645.62D.645.62F,635.644.639.645,631.633.648.644,639.644.64A.647",
   "FDF8=648.633.644.645,635.644.649 FE33=5F,5F FE4D=5F,5F,5F FE71=640.64B FE77=640.64E FE79=640.64F",
   "FE7B=640.650 FE7D=640.651 FE7F=640.652,621,622,622,623,623,624,624 FE87=625,625,626,626,626,626,627,627",
   "FE8F=628,628,628,628,629,629,62A,62A FE97=62A,62A,62B,62B,62B,62B,62C,62C",
   "FE9F=62C,62C,62D,62D,62D,62D,62E,62E FEA7=62E,62E,62F,62F,630,630,631,631",
   "FEAF=632,632,633,633,633,633,634,634 FEB7=634,634,635,635,635,635,636,636",
   "FEBF=636,636,637,637,637,637,638,638 FEC7=638,638,639,639,639,639,63A,63A",
   "FECF=63A,63A,641,641,641,641,642,642 FED7=642,642,643,643,643,643,644,644",
   "FEDF=644,644,645,645,645,645,646,646 FEE7=646,646,647,647,647,647,648,648",
   "FEEF=649,649,64A,64A,64A,64A,644.622,644.622 FEF7=644.623,644.623,644.625,644.625,644.627,644.627",
   "FF10-FF19=30 FF21-FF3A=41 FF3F=5F FF41-FF5A=61 FF66=30F2,30A1,30A3,30A5,30A7,30A9,30E3,30E5",
   "FF6E=30E7,30C3,30FC,30A2,30A4,30A6,30A8,30AA FF76=30AB,30AD,30AF,30B1,30B3,30B5,30B7,30B9",
   "FF7E=30BB,30BD,30BF,30C1,30C4,30C6,30C8 FF85-FF8A=30CA FF8B=30D2,30D5,30D8,30DB FF8F-FF93=30DE",
   "FF94=30E4,30E6 FF96-FF9B=30E8 FF9C=30EF,30F3,3099,309A,1160,1100,1101,11AA FFA4=1102,11AC,11AD",
   "FFA7-FFA9=1103 FFAA-FFAF=11B0 FFB0=111A FFB1-FFB3=1106 FFB4=1121 FFB5-FFBE=1109 FFC2-FFC7=1161",
   "FFCA-FFCF=1167 FFD2-FFD7=116D FFDA-FFDC=1173 10781=2D0,2D1,E6,299,253",
   "10787=2A3,AB66,2A5,2A4,256,257,1D91,258 1078F=25E,2A9,264,262,260,29B,127,29C",
   "10797=267,284,2AA,2AB,26C,1DF04,A78E,26E 1079F=1DF05,28E,1DF06,F8,276,277,71,27A",
   "107A7=1DF08,27D,27E,280,2A8,2A6,AB67,2A7 107AF=288,2C71 107B2=28F,2A1,2A2,298 107B6-107B8=1C0",
   "107B9=1DF0A,1DF1E 1D400-1D419=41 1D41A-1D433=61 1D434-1D44D=41 1D44E-1D454=61 1D456-1D467=69",
   "1D468-1D481=41 1D482-1D49B=61 1D49C=41 1D49E=43,44 1D4A2=47 1D4A5=4A,4B 1D4A9-1D4AC=4E 1D4AE-1D4B5=53",
   "1D4B6-1D4B9=61 1D4BB=66 1D4BD-1D4C3=68 1D4C5-1D4CF=70 1D4D0-1D4E9=41 1D4EA-1D503=61 1D504=41,42",
   "1D507-1D50A=44 1D50D-1D514=4A 1D516-1D51C=53 1D51E-1D537=61 1D538=41,42 1D53B-1D53E=44 1D540-1D544=49",
   "1D546=4F 1D54A-1D550=53 1D552-1D56B=61 1D56C-1D585=41 1D586-1D59F=61 1D5A0-1D5B9=41 1D5BA-1D5D3=61",
   "1D5D4-1D5ED=41 1D5EE-1D607=61 1D608-1D621=41 1D622-1D63B=61 1D63C-1D655=41 1D656-1D66F=61 1D670-1D689=41",
   "1D68A-1D6A3=61 1D6A4=131,237 1D6A8-1D6B8=391 1D6B9=398 1D6BA-1D6C0=3A3 1D6C2-1D6DA=3B1",
   "1D6DC=3B5,3B8,3BA,3C6,3C1,3C0 1D6E2-1D6F2=391 1D6F3=398 1D6F4-1D6FA=3A3 1D6FC-1D714=3B1",
   "1D716=3B5,3B8,3BA,3C6,3C1,3C0 1D71C-1D72C=391 1D72D=398 1D72E-1D734=3A3 1D736-1D74E=3B1",
   "1D750=3B5,3B8,3BA,3C6,3C1,3C0 1D756-1D766=391 1D767=398 1D768-1D76E=3A3 1D770-1D788=3B1",
   "1D78A=3B5,3B8,3BA,3C6,3C1,3C0 1D790-1D7A0=391 1D7A1=398 1D7A2-1D7A8=3A3 1D7AA-1D7C2=3B1",
   "1D7C4=3B5,3B8,3BA,3C6,3C1,3C0,3DC,3DD 1D7CE-1D7D7=30 1D7D8-1D7E1=30 1D7E2-1D7EB=30 1D7EC-1D7F5=30",
   "1D7F6-1D7FF=30 1EE00=627,628,62C,62F 1EE05=648,632,62D,637,64A 1EE0A-1EE0D=643",
   "1EE0E=633,639,641,635,642,631,634,62A 1EE16=62B,62E,630,636,638,63A,66E,6BA 1EE1E=6A1,66F 1EE21=628,62C",
   "1EE24=647 1EE27=62D 1EE29=64A 1EE2A-1EE2D=643 1EE2E=633,639,641,635,642 1EE34=634,62A,62B,62E 1EE39=636",
   "1EE3B=63A 1EE42=62C 1EE47=62D 1EE49=64A 1EE4B=644 1EE4D=646,633,639 1EE51=635,642 1EE54=634 1EE57=62E",
   "1EE59=636 1EE5B=63A 1EE5D=6BA 1EE5F=66F 1EE61=628,62C 1EE64=647 1EE67=62D,637,64A,643",
   "1EE6C=645,646,633,639,641,635,642 1EE74=634,62A,62B,62E 1EE79=636,638,63A,66E 1EE7E=6A1",
   "1EE80=627,628,62C,62F,647,648,632,62D 1EE88=637,64A 1EE8B-1EE8D=644",
   "1EE8E=633,639,641,635,642,631,634,62A 1EE96=62B,62E,630,636,638,63A 1EEA1=628,62C,62F",
   "1EEA5=648,632,62D,637,64A 1EEAB-1EEAD=644 1EEAE=633,639,641,635,642,631,634,62A",
   "1EEB6=62B,62E,630,636,638,63A 1FBF0-1FBF9=30 2F800=4E3D,4E38,4E41,20122,4F60,4FAE,4FBB,5002",
   "2F808=507A,5099,50E7,50CF,349E,2063A,514D,5154 2F810=5164,5177,2051C,34B9,5167,518D,2054B,5197",
   "2F818=51A4,4ECC,51AC,51B5,291DF,51F5,5203,34DF 2F820=523B,5246,5272,5277,3515,52C7,52C9,52E4",
   "2F828=52FA,5305,5306,5317,5349,5351,535A,5373 2F830=537D,537F,537F,537F,20A2C,7070,53CA,53DF",
   "2F838=20B63,53EB,53F1,5406,549E,5438,5448,5468 2F840=54A2,54F6,5510,5553,5563,5584,5584,5599",
   "2F848=55AB,55B3,55C2,5716,5606,5717,5651,5674 2F850=5207,58EE,57CE,57F4,580D,578B,5832,5831",
   "2F858=58AC,214E4,58F2,58F7,5906,591A,5922,5962 2F860=216A8,216EA,59EC,5A1B,5A27,59D8,5A66,36EE",
   "2F868=36FC,5B08,5B3E,5B3E,219C8,5BC3,5BD8,5BE7 2F870=5BF3,21B18,5BFF,5C06,5F53,5C22,3781,5C60",
   "2F878=5C6E,5CC0,5C8D,21DE4,5D43,21DE6,5D6E,5D6B 2F880=5D7C,5DE1,5DE2,382F,5DFD,5E28,5E3D,5E69",
   "2F888=3862,22183,387C,5EB0,5EB3,5EB6,5ECA,2A392 2F890=5EFE,22331,22331,8201,5F22,5F22,38C7,232B8",
   "2F898=261DA,5F62,5F6B,38E3,5F9A,5FCD,5FD7,5FF9 2F8A0=6081,393A,391C,6094,226D4,60C7,6148,614C",
   "2F8A8=614E,614C,617A,618E,61B2,61A4,61AF,61DE 2F8B0=61F2,61F6,6210,621B,625D,62B1,62D4,6350",
   "2F8B8=22B0C,633D,62FC,6368,6383,63E4,22BF1,6422 2F8C0=63C5,63A9,3A2E,6469,647E,649D,6477,3A6C",
   "2F8C8=654F,656C,2300A,65E3,66F8,6649,3B19,6691 2F8D0=3B08,3AE4,5192,5195,6700,669C,80AD,43D9",
   "2F8D8=6717,671B,6721,675E,6753,233C3,3B49,67FA 2F8E0=6785,6852,6885,2346D,688E,681F,6914,3B9D",
   "2F8E8=6942,69A3,69EA,6AA8,236A3,6ADB,3C18,6B21 2F8F0=238A7,6B54,3C4E,6B72,6B9F,6BBA,6BBB,23A8D",
   "2F8F8=21D0B,23AFA,6C4E,23CBC,6CBF,6CCD,6C67,6D16 2F900=6D3E,6D77,6D41,6D69,6D78,6D85,23D1E,6D34",
   "2F908=6E2F,6E6E,3D33,6ECB,6EC7,23ED1,6DF9,6F6E 2F910=23F5E,23F8E,6FC6,7039,701E,701B,3D96,704A",
   "2F918=707D,7077,70AD,20525,7145,24263,719C,243AB 2F920=7228,7235,7250,24608,7280,7295,24735,24814",
   "2F928=737A,738B,3EAC,73A5,3EB8,3EB8,7447,745C 2F930=7471,7485,74CA,3F1B,7524,24C36,753E,24C92",
   "2F938=7570,2219F,7610,24FA1,24FB8,25044,3FFC,4008 2F940=76F4,250F3,250F2,25119,25133,771E,771F,771F",
   "2F948=774A,4039,778B,4046,4096,2541D,784E,788C 2F950=78CC,40E3,25626,7956,2569A,256C5,798F,79EB",
   "2F958=412F,7A40,7A4A,7A4F,2597C,25AA7,25AA7,7AEE 2F960=4202,25BAB,7BC6,7BC9,4227,25C80,7CD2,42A0",
   "2F968=7CE8,7CE3,7D00,25F86,7D63,4301,7DC7,7E02 2F970=7E45,4334,26228,26247,4359,262D9,7F7A,2633E",
   "2F978=7F95,7FFA,8005,264DA,26523,8060,265A8,8070 2F980=2335F,43D5,80B2,8103,440B,813E,5AB5,267A7",
   "2F988=267B5,23393,2339C,8201,8204,8F9E,446B,8291 2F990=828B,829D,52B3,82B1,82B3,82BD,82E6,26B3C",
   "2F998=82E5,831D,8363,83AD,8323,83BD,83E7,8457 2F9A0=8353,83CA,83CC,83DC,26C36,26D6B,26CD5,452B",
   "2F9A8=84F1,84F3,8516,273CA,8564,26F2C,455D,4561 2F9B0=26FB1,270D2,456B,8650,865C,8667,8669,86A9",
   "2F9B8=8688,870E,86E2,8779,8728,876B,8786,45D7 2F9C0=87E1,8801,45F9,8860,8863,27667,88D7,88DE",
   "2F9C8=4635,88FA,34BB,278AE,27966,46BE,46C7,8AA0 2F9D0=8AED,8B8A,8C55,27CA8,8CAB,8CC1,8D1B,8D77",
   "2F9D8=27F2F,20804,8DCB,8DBC,8DF0,208DE,8ED4,8F38 2F9E0=285D2,285ED,9094,90F1,9111,2872E,911B,9238",
   "2F9E8=92D7,92D8,927C,93F9,9415,28BFA,958B,4995 2F9F0=95B7,28D77,49E6,96C3,5DB2,9723,29145,2921A",
   "2F9F8=4A6E,4A76,97E0,2940A,4AB2,29496,980B,980B 2FA00=9829,295B6,98E2,4B33,9929,99A7,99C2,99FE",
   "2FA08=4BCE,29B30,9B12,9C40,9CFD,4CCE,4CED,9D67 2FA10=2A0CE,4CF8,2A105,2A20E,2A291,9EBB,4D56,9EF9",
   "2FA18=9EFE,9F05,9F0F,9F16,9F3B,2A600"]

/-- The characters that are composed of others. -/
def compositions : List String :=
  ["C0=41.300,41.301,41.302,41.303,41.308,41.30A C7=43.327,45.300,45.301,45.302,45.308,49.300,49.301,49.302",
   "CF=49.308 D1=4E.303,4F.300,4F.301,4F.302,4F.303,4F.308 D9=55.300,55.301,55.302,55.308,59.301",
   "E0=61.300,61.301,61.302,61.303,61.308,61.30A E7=63.327,65.300,65.301,65.302,65.308,69.300,69.301,69.302",
   "EF=69.308 F1=6E.303,6F.300,6F.301,6F.302,6F.303,6F.308 F9=75.300,75.301,75.302,75.308,79.301",
   "FF=79.308,41.304,61.304,41.306,61.306,41.328,61.328,43.301",
   "107=63.301,43.302,63.302,43.307,63.307,43.30C,63.30C,44.30C 10F=64.30C",
   "112=45.304,65.304,45.306,65.306,45.307,65.307,45.328,65.328",
   "11A=45.30C,65.30C,47.302,67.302,47.306,67.306,47.307,67.307 122=47.327,67.327,48.302,68.302",
   "128=49.303,69.303,49.304,69.304,49.306,69.306,49.328,69.328 130=49.307 134=4A.302,6A.302,4B.327,6B.327",
   "139=4C.301,6C.301,4C.327,6C.327,4C.30C,6C.30C 143=4E.301,6E.301,4E.327,6E.327,4E.30C,6E.30C",
   "14C=4F.304,6F.304,4F.306,6F.306,4F.30B,6F.30B",
   "154=52.301,72.301,52.327,72.327,52.30C,72.30C,53.301,73.301",
   "15C=53.302,73.302,53.327,73.327,53.30C,73.30C,54.327,74.327 164=54.30C,74.30C",
   "168=55.303,75.303,55.304,75.304,55.306,75.306,55.30A,75.30A",
   "170=55.30B,75.30B,55.328,75.328,57.302,77.302,59.302,79.302",
   "178=59.308,5A.301,7A.301,5A.307,7A.307,5A.30C,7A.30C 1A0=4F.31B,6F.31B 1AF=55.31B,75.31B",
   "1CD=41.30C,61.30C,49.30C,69.30C,4F.30C,6F.30C,55.30C,75.30C",
   "1D5=55.308.304,75.308.304,55.308.301,75.308.301,55.308.30C,75.308.30C,55.308.300,75.308.300",
   "1DE=41.308.304,61.308.304,41.307.304,61.307.304,C6.304,E6.304",
   "1E6=47.30C,67.30C,4B.30C,6B.30C,4F.328,6F.328,4F.328.304,6F.328.304 1EE=1B7.30C,292.30C,6A.30C",
   "1F4=47.301,67.301 1F8=4E.300,6E.300,41.30A.301,61.30A.301,C6.301,E6.301,D8.301,F8.301",
   "200=41.30F,61.30F,41.311,61.311,45.30F,65.30F,45.311,65.311",
   "208=49.30F,69.30F,49.311,69.311,4F.30F,6F.30F,4F.311,6F.311",
   "210=52.30F,72.30F,52.311,72.311,55.30F,75.30F,55.311,75.311 218=53.326,73.326,54.326,74.326",
   "21E=48.30C,68.30C 226=41.307,61.307,45.327,65.327,4F.308.304,6F.308.304,4F.303.304,6F.303.304",
   "22E=4F.307,6F.307,4F.307.304,6F.307.304,59.304,79.304 386=391.301 388=395.301,397.301,399.301",
   "38C=39F.301 38E=3A5.301,3A9.301,3B9.308.301",
   "3AA=399.308,3A5.308,3B1.301,3B5.301,3B7.301,3B9.301,3C5.308.301",
   "3CA=3B9.308,3C5.308,3BF.301,3C5.301,3C9.301 400=415.300,415.308 403=413.301 407=406.308",
   "40C=41A.301,418.300,423.306 419=418.306 439=438.306 450=435.300,435.308 453=433.301 457=456.308",
   "45C=43A.301,438.300,443.306 476=474.30F,475.30F 4C1=416.306,436.306 4D0=410.306,430.306,410.308,430.308",
   "4D6=415.306,435.306 4DA=4D8.308,4D9.308,416.308,436.308,417.308,437.308",
   "4E2=418.304,438.304,418.308,438.308,41E.308,43E.308",
   "4EA=4E8.308,4E9.308,42D.308,44D.308,423.304,443.304,423.308,443.308 4F2=423.30B,443.30B,427.308,447.308",
   "4F8=42B.308,44B.308 622=627.653,627.654,648.654,627.655,64A.654 6C0=6D5.654 6C2=6C1.654 6D3=6D2.654",
   "929=928.93C 931=930.93C 934=933.93C 9CB=9C7.9BE,9C7.9D7 B48=B47.B56 B4B=B47.B3E,B47.B57 B94=B92.BD7",
   "BCA=BC6.BBE,BC7.BBE,BC6.BD7 C48=C46.C56 CC0=CBF.CD5 CC7=CC6.CD5,CC6.CD6 CCA=CC6.CC2,CC6.CC2.CD5",
   "D4A=D46.D3E,D47.D3E,D46.D57 DDA=DD9.DCA DDC=DD9.DCF,DD9.DCF.DCA,DD9.DDF 1026=1025.102E 1B06=1B05.1B35",
   "1B08=1B07.1B35 1B0A=1B09.1B35 1B0C=1B0B.1B35 1B0E=1B0D.1B35 1B12=1B11.1B35 1B3B=1B3A.1B35 1B3D=1B3C.1B35",
   "1B40=1B3E.1B35,1B3F.1B35 1B43=1B42.1B35 1E00=41.325,61.325,42.307,62.307,42.323,62.323,42.331,62.331",
   "1E08=43.327.301,63.327.301,44.307,64.307,44.323,64.323,44.331,64.331",
   "1E10=44.327,64.327,44.32D,64.32D,45.304.300,65.304.300,45.304.301,65.304.301",
   "1E18=45.32D,65.32D,45.330,65.330,45.327.306,65.327.306,46.307,66.307",
   "1E20=47.304,67.304,48.307,68.307,48.323,68.323,48.308,68.308",
   "1E28=48.327,68.327,48.32E,68.32E,49.330,69.330,49.308.301,69.308.301",
   "1E30=4B.301,6B.301,4B.323,6B.323,4B.331,6B.331,4C.323,6C.323",
   "1E38=4C.323.304,6C.323.304,4C.331,6C.331,4C.32D,6C.32D,4D.301,6D.301",
   "1E40=4D.307,6D.307,4D.323,6D.323,4E.307,6E.307,4E.323,6E.323",
   "1E48=4E.331,6E.331,4E.32D,6E.32D,4F.303.301,6F.303.301,4F.303.308,6F.303.308",
   "1E50=4F.304.300,6F.304.300,4F.304.301,6F.304.301,50.301,70.301,50.307,70.307",
   "1E58=52.307,72.307,52.323,72.323,52.323.304,72.323.304,52.331,72.331",
   "1E60=53.307,73.307,53.323,73.323,53.301.307,73.301.307,53.30C.307,73.30C.307",
   "1E68=53.323.307,73.323.307,54.307,74.307,54.323,74.323,54.331,74.331",
   "1E70=54.32D,74.32D,55.324,75.324,55.330,75.330,55.32D,75.32D",
   "1E78=55.303.301,75.303.301,55.304.308,75.304.308,56.303,76.303,56.323,76.323",
   "1E80=57.300,77.300,57.301,77.301,57.308,77.308,57.307,77.307",
   "1E88=57.323,77.323,58.307,78.307,58.308,78.308,59.307,79.307",
   "1E90=5A.302,7A.302,5A.323,7A.323,5A.331,7A.331,68.331,74.308 1E98=77.30A,79.30A",
   "1EA0=41.323,61.323,41.309,61.309,41.302.301,61.302.301,41.302.300,61.302.300",
   "1EA8=41.302.309,61.302.309,41.302.303,61.302.303,41.323.302,61.323.302,41.306.301,61.306.301",
   "1EB0=41.306.300,61.306.300,41.306.309,61.306.309,41.306.303,61.306.303,41.323.306,61.323.306",
   "1EB8=45.323,65.323,45.309,65.309,45.303,65.303,45.302.301,65.302.301",
   "1EC0=45.302.300,65.302.300,45.302.309,65.302.309,45.302.303,65.302.303,45.323.302,65.323.302",
   "1EC8=49.309,69.309,49.323,69.323,4F.323,6F.323,4F.309,6F.309",
   "1ED0=4F.302.301,6F.302.301,4F.302.300,6F.302.300,4F.302.309,6F.302.309,4F.302.303,6F.302.303",
   "1ED8=4F.323.302,6F.323.302,4F.31B.301,6F.31B.301,4F.31B.300,6F.31B.300,4F.31B.309,6F.31B.309",
   "1EE0=4F.31B.303,6F.31B.303,4F.31B.323,6F.31B.323,55.323,75.323,55.309,75.309",
   "1EE8=55.31B.301,75.31B.301,55.31B.300,75.31B.300,55.31B.309,75.31B.309,55.31B.303,75.31B.303",
   "1EF0=55.31B.323,75.31B.323,59.300,79.300,59.323,79.323,59.309,79.309 1EF8=59.303,79.303",
   "1F00=3B1.313,3B1.314,3B1.313.300,3B1.314.300,3B1.313.301,3B1.314.301,3B1.313.342,3B1.314.342",
   "1F08=391.313,391.314,391.313.300,391.314.300,391.313.301,391.314.301,391.313.342,391.314.342",
   "1F10=3B5.313,3B5.314,3B5.313.300,3B5.314.300,3B5.313.301,3B5.314.301",
   "1F18=395.313,395.314,395.313.300,395.314.300,395.313.301,395.314.301",
   "1F20=3B7.313,3B7.314,3B7.313.300,3B7.314.300,3B7.313.301,3B7.314.301,3B7.313.342,3B7.314.342",
   "1F28=397.313,397.314,397.313.300,397.314.300,397.313.301,397.314.301,397.313.342,397.314.342",
   "1F30=3B9.313,3B9.314,3B9.313.300,3B9.314.300,3B9.313.301,3B9.314.301,3B9.313.342,3B9.314.342",
   "1F38=399.313,399.314,399.313.300,399.314.300,399.313.301,399.314.301,399.313.342,399.314.342",
   "1F40=3BF.313,3BF.314,3BF.313.300,3BF.314.300,3BF.313.301,3BF.314.301",
   "1F48=39F.313,39F.314,39F.313.300,39F.314.300,39F.313.301,39F.314.301",
   "1F50=3C5.313,3C5.314,3C5.313.300,3C5.314.300,3C5.313.301,3C5.314.301,3C5.313.342,3C5.314.342",
   "1F59=3A5.314 1F5B=3A5.314.300 1F5D=3A5.314.301",
   "1F5F=3A5.314.342,3C9.313,3C9.314,3C9.313.300,3C9.314.300,3C9.313.301,3C9.314.301,3C9.313.342",
   "1F67=3C9.314.342,3A9.313,3A9.314,3A9.313.300,3A9.314.300,3A9.313.301,3A9.314.301,3A9.313.342",
   "1F6F=3A9.314.342,3B1.300 1F72=3B5.300 1F74=3B7.300 1F76=3B9.300 1F78=3BF.300 1F7A=3C5.300 1F7C=3C9.300",
   "1F80=3B1.313.345,3B1.314.345,3B1.313.300.345,3B1.314.300.345,3B1.313.301.345,3B1.314.301.345,3B1.313.342.345,3B1.314.342.345",
   "1F88=391.313.345,391.314.345,391.313.300.345,391.314.300.345,391.313.301.345,391.314.301.345,391.313.342.345,391.314.342.345",
   "1F90=3B7.313.345,3B7.314.345,3B7.313.300.345,3B7.314.300.345,3B7.313.301.345,3B7.314.301.345,3B7.313.342.345,3B7.314.342.345",
   "1F98=397.313.345,397.314.345,397.313.300.345,397.314.300.345,397.313.301.345,397.314.301.345,397.313.342.345,397.314.342.345",
   "1FA0=3C9.313.345,3C9.314.345,3C9.313.300.345,3C9.314.300.345,3C9.313.301.345,3C9.314.301.345,3C9.313.342.345,3C9.314.342.345",
   "1FA8=3A9.313.345,3A9.314.345,3A9.313.300.345,3A9.314.300.345,3A9.313.301.345,3A9.314.301.345,3A9.313.342.345,3A9.314.342.345",
   "1FB0=3B1.306,3B1.304,3B1.300.345,3B1.345,3B1.301.345 1FB6=3B1.342,3B1.342.345,391.306,391.304,391.300",
   "1FBC=391.345 1FC2=3B7.300.345,3B7.345,3B7.301.345 1FC6=3B7.342,3B7.342.345,395.300 1FCA=397.300",
   "1FCC=397.345 1FD0=3B9.306,3B9.304,3B9.308.300 1FD6=3B9.342,3B9.308.342,399.306,399.304,399.300",
   "1FE0=3C5.306,3C5.304,3C5.308.300 1FE4=3C1.313,3C1.314,3C5.342,3C5.308.342,3A5.306,3A5.304,3A5.300",
   "1FEC=3A1.314 1FF2=3C9.300.345,3C9.345,3C9.301.345 1FF6=3C9.342,3C9.342.345,39F.300 1FFA=3A9.300",
   "1FFC=3A9.345 304C=304B.3099 304E=304D.3099 3050=304F.3099 3052=3051.3099 3054=3053.3099 3056=3055.3099",
   "3058=3057.3099 305A=3059.3099 305C=305B.3099 305E=305D.3099 3060=305F.3099 3062=3061.3099 3065=3064.3099",
   "3067=3066.3099 3069=3068.3099 3070=306F.3099,306F.309A 3073=3072.3099,3072.309A 3076=3075.3099,3075.309A",
   "3079=3078.3099,3078.309A 307C=307B.3099,307B.309A 3094=3046.3099 309E=309D.3099 30AC=30AB.3099",
   "30AE=30AD.3099 30B0=30AF.3099 30B2=30B1.3099 30B4=30B3.3099 30B6=30B5.3099 30B8=30B7.3099 30BA=30B9.3099",
   "30BC=30BB.3099 30BE=30BD.3099 30C0=30BF.3099 30C2=30C1.3099 30C5=30C4.3099 30C7=30C6.3099 30C9=30C8.3099",
   "30D0=30CF.3099,30CF.309A 30D3=30D2.3099,30D2.309A 30D6=30D5.3099,30D5.309A 30D9=30D8.3099,30D8.309A",
   "30DC=30DB.3099,30DB.309A 30F4=30A6.3099 30F7=30EF.3099,30F0.3099,30F1.3099,30F2.3099 30FE=30FD.3099",
   "1109A=11099.110BA 1109C=1109B.110BA 110AB=110A5.110BA 1112E=11131.11127,11132.11127",
   "1134B=11347.1133E,11347.11357 114BB=114B9.114BA,114B9.114B0 114BE=114B9.114BD",
   "115BA=115B8.115AF,115B9.115AF 11938=11935.11930"]

/-- The classes of marks. -/
def markClasses : List String :=
  ["300-314=E6 315=E8 316-319=DC 31A=E8 31B=D8 31C-320=DC 321-322=CA 323-326=DC 327-328=CA 329-333=DC",
   "334-338=1 339-33C=DC 33D-344=E6 345=F0 346=E6 347-349=DC 34A-34C=E6 34D-34E=DC 350-352=E6 353-356=DC",
   "357=E6 358=E8 359-35A=DC 35B=E6 35C=E9 35D-35E=EA 35F=E9 360-361=EA 362=E9 363-36F=E6 483-487=E6 591=DC",
   "592-595=E6 596=DC 597-599=E6 59A=DE 59B=DC 59C-5A1=E6 5A2-5A7=DC 5A8-5A9=E6 5AA=DC 5AB-5AC=E6 5AD=DE",
   "5AE=E4 5AF=E6 5B0=A 5B1=B 5B2=C 5B3=D 5B4=E 5B5=F 5B6=10 5B7=11 5B8=12 5B9-5BA=13 5BB=14 5BC=15 5BD=16",
   "5BF=17 5C1=18 5C2=19 5C4=E6 5C5=DC 5C7=12 610-617=E6 618=1E 619=1F 61A=20 64B=1B 64C=1C 64D=1D 64E=1E",
   "64F=1F 650=20 651=21 652=22 653-654=E6 655-656=DC 657-65B=E6 65C=DC 65D-65E=E6 65F=DC 670=23 6D6-6DC=E6",
   "6DF-6E2=E6 6E3=DC 6E4=E6 6E7-6E8=E6 6EA=DC 6EB-6EC=E6 6ED=DC 711=24 730=E6 731=DC 732-733=E6 734=DC",
   "735-736=E6 737-739=DC 73A=E6 73B-73C=DC 73D=E6 73E=DC 73F-741=E6 742=DC 743=E6 744=DC 745=E6 746=DC",
   "747=E6 748=DC 749-74A=E6 7EB-7F1=E6 7F2=DC 7F3=E6 7FD=DC 816-819=E6 81B-823=E6 825-827=E6 829-82D=E6",
   "859-85B=DC 898=E6 899-89B=DC 89C-89F=E6 8CA-8CE=E6 8CF-8D3=DC 8D4-8E1=E6 8E3=DC 8E4-8E5=E6 8E6=DC",
   "8E7-8E8=E6 8E9=DC 8EA-8EC=E6 8ED-8EF=DC 8F0=1B 8F1=1C 8F2=1D 8F3-8F5=E6 8F6=DC 8F7-8F8=E6 8F9-8FA=DC",
   "8FB-8FF=E6 93C=7 94D=9 951=E6 952=DC 953-954=E6 9BC=7 9CD=9 9FE=E6 A3C=7 A4D=9 ABC=7 ACD=9 B3C=7 B4D=9",
   "BCD=9 C3C=7 C4D=9 C55=54 C56=5B CBC=7 CCD=9 D3B-D3C=9 D4D=9 DCA=9 E38-E39=67 E3A=9 E48-E4B=6B EB8-EB9=76",
   "EBA=9 EC8-ECB=7A F18-F19=DC F35=DC F37=DC F39=D8 F71=81 F72=82 F74=84 F7A-F7D=82 F80=82 F82-F83=E6 F84=9",
   "F86-F87=E6 FC6=DC 1037=7 1039-103A=9 108D=DC 135D-135F=E6 1714-1715=9 1734=9 17D2=9 17DD=E6 18A9=E4",
   "1939=DE 193A=E6 193B=DC 1A17=E6 1A18=DC 1A60=9 1A75-1A7C=E6 1A7F=DC 1AB0-1AB4=E6 1AB5-1ABA=DC",
   "1ABB-1ABC=E6 1ABD=DC 1ABF-1AC0=DC 1AC1-1AC2=E6 1AC3-1AC4=DC 1AC5-1AC9=E6 1ACA=DC 1ACB-1ACE=E6 1B34=7",
   "1B44=9 1B6B=E6 1B6C=DC 1B6D-1B73=E6 1BAA-1BAB=9 1BE6=7 1BF2-1BF3=9 1C37=7 1CD0-1CD2=E6 1CD4=1",
   "1CD5-1CD9=DC 1CDA-1CDB=E6 1CDC-1CDF=DC 1CE0=E6 1CE2-1CE8=1 1CED=DC 1CF4=E6 1CF8-1CF9=E6 1DC0-1DC1=E6",
   "1DC2=DC 1DC3-1DC9=E6 1DCA=DC 1DCB-1DCC=E6 1DCD=EA 1DCE=D6 1DCF=DC 1DD0=CA 1DD1-1DF5=E6 1DF6=E8",
   "1DF7-1DF8=E4 1DF9=DC 1DFA=DA 1DFB=E6 1DFC=E9 1DFD=DC 1DFE=E6 1DFF=DC 20D0-20D1=E6 20D2-20D3=1",
   "20D4-20D7=E6 20D8-20DA=1 20DB-20DC=E6 20E1=E6 20E5-20E6=1 20E7=E6 20E8=DC 20E9=E6 20EA-20EB=1",
   "20EC-20EF=DC 20F0=E6 2CEF-2CF1=E6 2D7F=9 2DE0-2DFF=E6 302A=DA 302B=E4 302C=E8 302D=DE 302E-302F=E0",
   "3099-309A=8 A66F=E6 A674-A67D=E6 A69E-A69F=E6 A6F0-A6F1=E6 A806=9 A82C=9 A8C4=9 A8E0-A8F1=E6",
   "A92B-A92D=DC A953=9 A9B3=7 A9C0=9 AAB0=E6 AAB2-AAB3=E6 AAB4=DC AAB7-AAB8=E6 AABE-AABF=E6 AAC1=E6 AAF6=9",
   "ABED=9 FB1E=1A FE20-FE26=E6 FE27-FE2D=DC FE2E-FE2F=E6 101FD=DC 102E0=DC 10376-1037A=E6 10A0D=DC 10A0F=E6",
   "10A38=E6 10A39=1 10A3A=DC 10A3F=9 10AE5=E6 10AE6=DC 10D24-10D27=E6 10EAB-10EAC=E6 10F46-10F47=DC",
   "10F48-10F4A=E6 10F4B=DC 10F4C=E6 10F4D-10F50=DC 10F82=E6 10F83=DC 10F84=E6 10F85=DC 11046=9 11070=9",
   "1107F=9 110B9=9 110BA=7 11100-11102=E6 11133-11134=9 11173=7 111C0=9 111CA=7 11235=9 11236=7 112E9=7",
   "112EA=9 1133B-1133C=7 1134D=9 11366-1136C=E6 11370-11374=E6 11442=9 11446=7 1145E=E6 114C2=9 114C3=7",
   "115BF=9 115C0=7 1163F=9 116B6=9 116B7=7 1172B=9 11839=9 1183A=7 1193D-1193E=9 11943=7 119E0=9 11A34=9",
   "11A47=9 11A99=9 11C3F=9 11D42=7 11D44-11D45=9 11D97=9 16AF0-16AF4=1 16B30-16B36=E6 16FF0-16FF1=6 1BC9E=1",
   "1D165-1D166=D8 1D167-1D169=1 1D16D=E2 1D16E-1D172=D8 1D17B-1D182=DC 1D185-1D189=E6 1D18A-1D18B=DC",
   "1D1AA-1D1AD=E6 1D242-1D244=E6 1E000-1E006=E6 1E008-1E018=E6 1E01B-1E021=E6 1E023-1E024=E6 1E026-1E02A=E6",
   "1E130-1E136=E6 1E2AE=E6 1E2EC-1E2EF=E6 1E8D0-1E8D6=DC 1E944-1E949=E6 1E94A=7"]

end Unicode

end Text

end FactorPlan
